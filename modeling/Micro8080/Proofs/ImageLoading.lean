import Micro8080.Proofs.Coherence

/-!
# Images in memory

An image is stored whole or not at all: it has to end within the address space, it covers one block
of cells there and no cell beyond it, and a refusal leaves every cell as it was. So an image in two
parts may be stored part by part, the second one behind the first. A new machine on memory with
nothing but an image in it fetches from that image.
-/

namespace Micro8080

namespace Memory

variable {m n k : Memory} {origin : Word} {image : List Byte}

/-- `n` is `m` with `image` over the cells from `origin` on. The block does not wrap. -/
structure Overlaid (m : Memory) (origin : Word) (image : List Byte) (n : Memory) : Prop where
  inside : ∀ x : Word, origin.toNat ≤ x.toNat → x.toNat < origin.toNat + image.length →
    image[x.toNat - origin.toNat]? = some (n.read x)
  outside : ∀ x : Word, x.toNat < origin.toNat ∨ origin.toNat + image.length ≤ x.toNat →
    n.read x = m.read x

theorem Overlaid.unique (hn : m.Overlaid origin image n) (hk : m.Overlaid origin image k) :
    n = k := by
  refine Memory.ext fun x => ?_
  by_cases hx : origin.toNat ≤ x.toNat ∧ x.toNat < origin.toNat + image.length
  · have hi := hn.inside x hx.1 hx.2
    rw [hk.inside x hx.1 hx.2] at hi
    exact (Option.some.inj hi).symm
  · have ho : x.toNat < origin.toNat ∨ origin.toNat + image.length ≤ x.toNat := by omega
    rw [hn.outside x ho, hk.outside x ho]

theorem overlaid_fill (h : origin.toNat + image.length ≤ size) :
    m.Overlaid origin image (m.fill origin image) where
  inside x hlo hhi := by
    rw [read_fill _ _ _ _ h, if_pos hlo, List.getElem?_eq_getElem (by omega), Option.getD_some]
  outside x hx := by
    rw [read_fill _ _ _ _ h]
    split
    · next hlo =>
      rw [List.getElem?_eq_none (by omega), Option.getD_none]
    · rfl

theorem load?_eq_some_iff_overlaid :
    m.load? origin image = some n ↔
      origin.toNat + image.length ≤ size ∧ m.Overlaid origin image n := by
  rw [load?_eq_some_iff]
  constructor
  · rintro ⟨h, rfl⟩
    exact ⟨h, overlaid_fill h⟩
  · rintro ⟨h, ho⟩
    exact ⟨h, ho.unique (overlaid_fill h)⟩

theorem isSome_load? :
    (m.load? origin image).isSome = true ↔ origin.toNat + image.length ≤ size := by
  rw [load?]
  split <;> simp [*]

/-- What fills all of memory has to begin in the first cell. -/
theorem isSome_load?_of_length_eq_size (h : image.length = size) :
    (m.load? origin image).isSome = true ↔ origin = 0 := by
  have h0 : (0 : Word).toNat = 0 := rfl
  rw [isSome_load?, h, ← UInt16.toNat_inj, h0]
  omega

theorem fill_append (m : Memory) (a : Word) (p q : List Byte) :
    m.fill a (p ++ q) = (m.fill a p).fill (a + UInt16.ofNat p.length) q := by
  induction p generalizing m a with
  | nil =>
    have ha : a + UInt16.ofNat 0 = a := UInt16.add_zero a
    rw [List.nil_append, List.length_nil, ha, fill]
  | cons v p ih =>
    have ha : a + 1 + UInt16.ofNat p.length = a + UInt16.ofNat (p.length + 1) := by
      rw [UInt16.ofNat_add, UInt16.add_comm (UInt16.ofNat p.length), UInt16.add_assoc]
      rfl
    rw [List.cons_append, fill, ih, ha, List.length_cons, fill]

/-- The second part has an address of its own, so the first one must not end memory. -/
theorem load?_append {p : List Byte} (q : List Byte) (h : origin.toNat + p.length < size) :
    m.load? origin (p ++ q) =
      (m.load? origin p).bind (·.load? (origin + UInt16.ofNat p.length) q) := by
  have ha : (origin + UInt16.ofNat p.length).toNat = origin.toNat + p.length := by
    rw [UInt16.toNat_add, UInt16.toNat_ofNat', Nat.add_mod_mod]
    exact Nat.mod_eq_of_lt h
  rw [(load?_eq_some_iff m origin p _).mpr ⟨Nat.le_of_lt h, rfl⟩, Option.bind_some, load?, load?,
    fill_append, ha, List.length_append, Nat.add_assoc]

/-- An image in the first cells, with zero bytes behind it. -/
theorem read_of_withImage? (h : withImage? 0 image = some n) (x : Word) :
    n.read x = image.getD x.toNat 0 := by
  obtain ⟨-, ho⟩ := load?_eq_some_iff_overlaid.mp h
  have h0 : (0 : Word).toNat = 0 := rfl
  rw [List.getD_eq_getElem?_getD]
  by_cases hx : x.toNat < image.length
  · have hi := ho.inside x (Nat.zero_le _) (by rwa [h0, Nat.zero_add])
    rw [h0, Nat.sub_zero] at hi
    rw [hi, Option.getD_some]
  · have hle : image.length ≤ x.toNat := Nat.le_of_not_lt hx
    rw [ho.outside x (.inr (by rwa [h0, Nat.zero_add])), List.getElem?_eq_none hle, read_zero,
      Option.getD_none]

end Memory

namespace Machine

theorem after_writeRegisters (m : Machine) (ws : List Registers.Write) :
    m.after (ws.map .writeRegisters) =
      { m with registers := Registers.performAll ws m.registers } := by
  induction ws generalizing m with
  | nil => rfl
  | cons w ws ih =>
    rw [List.map_cons, after_cons, ih]
    rfl

theorem obey_load_of_lt (m : Machine) {origin : Word} {image : List Byte}
    (h : Memory.size < origin.toNat + image.length) :
    m.obey (.writeMemory (.load origin image)) = ⟨m, [], .refused⟩ := by
  have hn : (Memory.Write.load origin image).perform? m.memory = none :=
    (m.memory.load?_eq_none_iff origin image).mpr h
  rw [obey, hn]

/-- Wherever the host lets a new machine begin, its first instruction is that of the image. -/
theorem takes_of_withImage? {image : List Byte} {memory : Memory}
    (h : Memory.withImage? 0 image = some memory) (ws : List Registers.Write) :
    let m := (new memory).after (ws.map .writeRegisters)
    m.Takes fun k => image.getD (m.registers.pc + UInt16.ofNat k).toNat 0 := by
  intro m
  have hm : m = { new memory with registers := Registers.performAll ws .zero } :=
    (new memory).after_writeRegisters ws
  have hp : m.phase = .idle := by rw [hm]; rfl
  have ht : m.ticks = .zero := by rw [hm]; rfl
  have hmemory : m.memory = memory := by rw [hm]; rfl
  have htakes := takes_of_idle hp (by rw [ht]; decide)
  simp only [hmemory, Memory.read_of_withImage? h] at htakes
  exact htakes

/-- An image is stored exactly if it ends within the address space; then it is in the cells from
its origin on, and the others are as they were. A refused image changes nothing. Parts of an image
stored one behind the other are the image, and a new machine on an image fetches from it. -/
theorem image_loading (m : Memory) (origin : Word) (image : List Byte) :
    ((m.load? origin image).isSome = true ↔ origin.toNat + image.length ≤ 65536) ∧
    m.load? origin [] = some m ∧
    (image.length = 65536 → ((m.load? origin image).isSome = true ↔ origin = 0)) ∧
    (∀ n, m.load? origin image = some n ↔
      origin.toNat + image.length ≤ 65536 ∧ m.Overlaid origin image n) ∧
    (65536 < origin.toNat + image.length →
      ∀ k : Machine, k.obey (.writeMemory (.load origin image)) = ⟨k, [], .refused⟩) ∧
    (∀ p q, origin.toNat + p.length ≤ 65535 →
      m.load? origin (p ++ q) =
        (m.load? origin p).bind (·.load? (origin + UInt16.ofNat p.length) q)) ∧
    ((Memory.withImage? origin image).isSome = true ↔ (m.load? origin image).isSome = true) ∧
    Memory.withImage? origin image = Memory.zero.load? origin image ∧
    ∀ memory, Memory.withImage? 0 image = some memory → ∀ ws : List Registers.Write,
      let k := (new memory).after (ws.map .writeRegisters)
      k.Takes fun j => image.getD (k.registers.pc + UInt16.ofNat j).toNat 0 := by
  refine ⟨Memory.isSome_load?, ?_, Memory.isSome_load?_of_length_eq_size,
    fun n => Memory.load?_eq_some_iff_overlaid, fun h k => k.obey_load_of_lt h, ?_, ?_, rfl,
    fun memory => takes_of_withImage?⟩
  · exact (m.load?_eq_some_iff origin [] m).mpr ⟨Nat.le_of_lt origin.toNat_lt, rfl⟩
  · intro p q h
    exact Memory.load?_append q (Nat.lt_succ_of_le h)
  · rw [Memory.withImage?, Memory.isSome_load?, Memory.isSome_load?]

/-- An image that passes the last address by one byte, one that ends with it, one of the size of
memory that does not begin in the first cell, and an instruction with its operand byte. -/
theorem images_up_to_last_address :
    let m := Memory.zero.write 0 7
    (new m).obey (.writeMemory (.load 0xFFFF [1, 2])) = ⟨new m, [], .refused⟩ ∧
      m.load? 0xFFFE [1, 2] = (m.load? 0xFFFE [1]).bind (·.load? 0xFFFF [2]) ∧
      ¬(m.load? 1 (List.replicate 65536 0)).isSome = true ∧
      ∃ memory, Memory.withImage? 0 [0x3E, 0x42] = some memory ∧
        (new memory).step.machine.registers.get .z = 0x42 := by
  intro m
  obtain ⟨-, -, -, -, hrefused, -⟩ := image_loading m 0xFFFF [1, 2]
  obtain ⟨-, -, -, -, -, happend, -⟩ := image_loading m 0xFFFE [1, 2]
  obtain ⟨-, -, hfull, -⟩ := image_loading m 1 (List.replicate 65536 0)
  obtain ⟨hfits, -, -, -, -, -, hzero, -, hfetch⟩ := image_loading m 0 [0x3E, 0x42]
  obtain ⟨memory, hm⟩ := Option.isSome_iff_exists.mp (hzero.mpr (hfits.mpr (by decide)))
  refine ⟨hrefused (by decide) (new m), happend [1] [2] (by decide), ?_, memory, hm, ?_⟩
  · rw [hfull List.length_replicate]
    decide
  · have hd : Instruction.decode? 0x3E = some (.mvi (.reg .a)) := by decide
    have htakes := hfetch memory hm []
    simp only [List.map_nil, after_nil, pc_new] at htakes
    exact htakes.z (.mvi (.reg .a)) hd (by decide)

end Machine

end Micro8080
