import Micro8080.Proofs.Observation

/-!
# The language of paths

The paths that have an answer are the names of the gauges and the paths to cells. A path to a cell
is `mem.`, any number of marks `0x`, possibly a plus sign, and the address in hexadecimal digits.
`Spells` says which texts are numerals, without a word on how they are read; the reader finds the
same number in a text of digits, or none if there is none.
-/

namespace Micro8080

namespace Numeral

/-- The hexadecimal digit of value `d`, in either case. -/
def IsDigit (c : Char) (d : Nat) : Prop :=
  d < 16 ∧ (c = Nat.digitChar d ∨ c = (Nat.digitChar d).toUpper)

instance (c : Char) (d : Nat) : Decidable (IsDigit c d) :=
  inferInstanceAs (Decidable (_ ∧ _))

/-- The text `cs` is the number `n` in hexadecimal digits, with leading zeros or without. -/
inductive Spells : List Char → Nat → Prop
  | digit {c : Char} {d : Nat} (h : IsDigit c d) : Spells [c] d
  | snoc {cs : List Char} {c : Char} {n d : Nat} (hs : Spells cs n) (h : IsDigit c d) :
      Spells (cs ++ [c]) (16 * n + d)

theorem digitValue?_of_isDigit {c : Char} {d : Nat} (h : IsDigit c d) :
    digitValue? 16 c = some d := by
  obtain ⟨hd, hc⟩ := h
  have hlower : ∀ k < 16, digitValue? 16 (Nat.digitChar k) = some k := by decide
  have hupper : ∀ k < 16, digitValue? 16 (Nat.digitChar k).toUpper = some k := by decide
  rcases hc with rfl | rfl
  · exact hlower d hd
  · exact hupper d hd

theorem lt_of_digitValue?_eq_some {c : Char} {d : Nat} (h : digitValue? 16 c = some d) :
    c.toNat < 103 := by
  rw [digitValue?, Option.filter_eq_some_iff] at h
  have hr := h.1
  split at hr
  · next hc => exact Nat.lt_of_le_of_lt hc.2 (by decide)
  · split at hr
    · next hc => exact Nat.lt_of_le_of_lt hc.2 (by decide)
    · split at hr
      · next hc => exact Nat.lt_of_le_of_lt hc.2 (by decide)
      · cases hr

theorem isDigit_of_digitValue? {c : Char} {d : Nat} (h : digitValue? 16 c = some d) :
    IsDigit c d := by
  have hall : ∀ n < 103, ∀ d ∈ digitValue? 16 (Char.ofNat n), IsDigit (Char.ofNat n) d := by
    decide +kernel
  have hc := hall c.toNat (lt_of_digitValue?_eq_some h)
  rw [Char.ofNat_toNat] at hc
  exact hc d h

theorem valueFrom?_of_spells {cs : List Char} {n : Nat} (h : Spells cs n) :
    valueFrom? 16 0 cs = some n := by
  induction h with
  | digit h => simp [valueFrom?, digitValue?_of_isDigit h]
  | snoc _ h ih => simp [valueFrom?_append, ih, valueFrom?, digitValue?_of_isDigit h]

/-- Reading on behind a numeral reads the longer numeral. -/
theorem spells_append {cs ds : List Char} {n v : Nat} (h : Spells cs n)
    (hv : valueFrom? 16 n ds = some v) : Spells (cs ++ ds) v := by
  induction ds generalizing cs n with
  | nil =>
    cases hv
    rwa [List.append_nil]
  | cons c ds ih =>
    obtain ⟨d, hd, hrest⟩ := Option.bind_eq_some_iff.mp hv
    have hs := ih (h.snoc (isDigit_of_digitValue? hd)) hrest
    rwa [List.append_assoc, List.singleton_append] at hs

theorem value?_eq_some_iff {cs : List Char} {n : Nat} : value? 16 cs = some n ↔ Spells cs n := by
  constructor
  · intro h
    cases cs with
    | nil => cases h
    | cons c cs =>
      obtain ⟨d, hd, hrest⟩ := Option.bind_eq_some_iff.mp h
      rw [Nat.mul_zero, Nat.zero_add] at hrest
      exact spells_append (.digit (isDigit_of_digitValue? hd)) hrest
  · intro h
    have hne : cs ≠ [] := by
      cases h <;> simp
    rw [value?_of_ne_nil 16 hne]
    exact valueFrom?_of_spells h

theorem Spells.isDigit_of_mem {cs : List Char} {n : Nat} (h : Spells cs n) {c : Char}
    (hc : c ∈ cs) : ∃ d, IsDigit c d := by
  induction h with
  | digit h =>
    cases List.mem_singleton.mp hc
    exact ⟨_, h⟩
  | snoc _ h ih =>
    rcases List.mem_append.mp hc with hc | hc
    · exact ih hc
    · cases List.mem_singleton.mp hc
      exact ⟨_, h⟩

theorem not_isDigit_of_mem {c : Char} (hc : c ∈ ['x', 'X', '+', '-']) (d : Nat) :
    ¬IsDigit c d := by
  have hnone : ∀ c ∈ ['x', 'X', '+', '-'], digitValue? 16 c = none := by simp [digitValue?]
  intro h
  have hd := digitValue?_of_isDigit h
  rw [hnone c hc] at hd
  cases hd

end Numeral

namespace Path

/-- `k` marks. -/
def marks : Nat → List Char
  | 0 => []
  | k + 1 => '0' :: 'x' :: marks k

/-- The text `cs` is the address `a`: any number of marks, one plus sign or none, and digits. -/
def Locates (cs : List Char) (a : Word) : Prop :=
  ∃ k sign ds, cs = marks k ++ (sign ++ ds) ∧ sign ∈ [[], ['+']] ∧ Numeral.Spells ds a.toNat

theorem dropMarks_marks (k : Nat) (cs : List Char) : dropMarks (marks k ++ cs) = dropMarks cs := by
  induction k with
  | zero => rfl
  | succ k ih => exact ih

theorem eq_marks_append (cs : List Char) : ∃ k, cs = marks k ++ dropMarks cs := by
  fun_induction dropMarks cs with
  | case1 cs ih =>
    obtain ⟨k, hk⟩ := ih
    exact ⟨k + 1, congrArg (fun ds => '0' :: 'x' :: ds) hk⟩
  | case2 cs h => exact ⟨0, rfl⟩

theorem eq_sign_append (cs : List Char) : ∃ sign ∈ [[], ['+']], cs = sign ++ dropPlus cs := by
  unfold dropPlus
  split
  · exact ⟨['+'], by simp, rfl⟩
  · exact ⟨[], by simp, rfl⟩

theorem dropMarks_sign {sign ds : List Char} (hs : sign ∈ [[], ['+']]) (hx : 'x' ∉ ds) :
    dropMarks (sign ++ ds) = sign ++ ds := by
  apply dropMarks_of_not_mem
  rw [List.mem_append, not_or]
  refine ⟨?_, hx⟩
  revert sign
  decide

theorem dropPlus_sign {sign ds : List Char} (hs : sign ∈ [[], ['+']]) (hp : '+' ∉ ds) :
    dropPlus (sign ++ ds) = ds := by
  rcases List.mem_cons.mp hs with rfl | hs
  · exact dropPlus_of_not_mem hp
  · cases List.mem_singleton.mp hs
    rfl

theorem not_mem_of_spells {ds : List Char} {n : Nat} (h : Numeral.Spells ds n) {c : Char}
    (hc : c ∈ ['x', 'X', '+', '-']) : c ∉ ds := by
  intro hmem
  obtain ⟨d, hd⟩ := h.isDigit_of_mem hmem
  exact Numeral.not_isDigit_of_mem hc d hd

/-- The greedy removal of marks never takes a digit of the address. -/
theorem value?_of_form {k n : Nat} {sign ds : List Char} (hs : sign ∈ [[], ['+']])
    (h : Numeral.Spells ds n) :
    Numeral.value? 16 (dropPlus (dropMarks (marks k ++ (sign ++ ds)))) = some n := by
  have hx : 'x' ∉ ds := not_mem_of_spells h (by decide)
  have hp : '+' ∉ ds := not_mem_of_spells h (by decide)
  rw [dropMarks_marks, dropMarks_sign hs hx, dropPlus_sign hs hp]
  exact Numeral.value?_eq_some_iff.mpr h

theorem address?_eq_some_iff {cs : List Char} {a : Word} :
    address? cs = some a ↔ Locates cs a := by
  rw [address?, Option.map_eq_some_iff]
  constructor
  · rintro ⟨n, hn, rfl⟩
    rw [Option.filter_eq_some_iff, decide_eq_true_iff, Numeral.value?_eq_some_iff] at hn
    obtain ⟨hspells, hlt⟩ := hn
    obtain ⟨k, hk⟩ := eq_marks_append cs
    obtain ⟨sign, hs, hsign⟩ := eq_sign_append (dropMarks cs)
    refine ⟨k, sign, dropPlus (dropMarks cs), ?_, hs, ?_⟩
    · rw [← hsign, ← hk]
    · have hn : (UInt16.ofNat n).toNat = n := UInt16.toNat_ofNat_of_lt' hlt
      rwa [hn]
  · rintro ⟨k, sign, ds, rfl, hs, h⟩
    refine ⟨a.toNat, ?_, UInt16.ofNat_toNat⟩
    rw [value?_of_form hs h, Option.filter_some, decide_eq_true a.toNat_lt, if_pos rfl]

/-- Texts that are no address behind any marks. -/
inductive Malformed : List Char → Prop
  | empty : Malformed []
  | plus : Malformed ['+']
  | minus (cs : List Char) : Malformed ('-' :: cs)
  | upperMark (cs : List Char) : Malformed ('0' :: 'X' :: cs)
  | markAfterPlus (cs : List Char) : Malformed ('+' :: '0' :: 'x' :: cs)
  | markAfterDigit {c : Char} {d : Nat} (h : Numeral.IsDigit c d) (cs : List Char) :
      Malformed (c :: '0' :: 'x' :: cs)
  | beyond {sign ds : List Char} {n : Nat} (hs : sign ∈ [[], ['+']]) (h : Numeral.Spells ds n)
      (hn : 0xFFFF < n) : Malformed (sign ++ ds)

/-- A character that is no digit, and that neither the marks nor the sign account for. -/
theorem address?_of_stray {cs : List Char} {c : Char} (hc : c ∈ ['x', 'X', '+', '-'])
    (hmem : c ∈ dropPlus (dropMarks cs)) (k : Nat) : address? (marks k ++ cs) = none := by
  have hv : Numeral.value? 16 (dropPlus (dropMarks cs)) = none := by
    cases hv : Numeral.value? 16 (dropPlus (dropMarks cs)) with
    | none => rfl
    | some n => exact absurd hmem (not_mem_of_spells (Numeral.value?_eq_some_iff.mp hv) hc)
  rw [address?, dropMarks_marks, hv]
  rfl

theorem address?_of_malformed {cs : List Char} (h : Malformed cs) (k : Nat) :
    address? (marks k ++ cs) = none := by
  cases h with
  | empty =>
    rw [address?, dropMarks_marks]
    rfl
  | plus =>
    rw [address?, dropMarks_marks]
    rfl
  | minus cs => exact address?_of_stray (c := '-') (by decide) List.mem_cons_self k
  | upperMark cs =>
    exact address?_of_stray (c := 'X') (by decide) (List.mem_cons_of_mem _ List.mem_cons_self) k
  | markAfterPlus cs =>
    exact address?_of_stray (c := 'x') (by decide) (List.mem_cons_of_mem _ List.mem_cons_self) k
  | @markAfterDigit c d h cs =>
    have hplus : c ≠ '+' := by
      rintro rfl
      exact Numeral.not_isDigit_of_mem (by decide) d h
    have hmem : 'x' ∈ dropPlus (dropMarks (c :: '0' :: 'x' :: cs)) := by
      simp [dropMarks, dropPlus, hplus]
    exact address?_of_stray (by decide) hmem k
  | @beyond sign ds n hs h hn =>
    rw [address?, value?_of_form hs h, Option.filter_some, decide_eq_false (Nat.not_lt.mpr hn)]
    rfl

end Path

namespace Machine

theorem eq_memPath {path : String} {cs : List Char} (h : Path.cell? path.toList = some cs) :
    path = memPath cs := by
  apply String.toList_inj.mp
  rw [toList_memPath]
  unfold Path.cell? at h
  split at h
  · next ds hl =>
    cases h
    exact hl
  · cases h

theorem query_cases (m : Machine) {path : String} {r : Reading} (h : m.query path = some r) :
    path ∈ queryPaths ∨ ∃ cs a, path = memPath cs ∧ Path.Locates cs a := by
  rw [query] at h
  cases hc : Path.cell? path.toList with
  | some cs =>
    rw [hc] at h
    obtain ⟨a, ha, -⟩ := Option.map_eq_some_iff.mp h
    exact .inr ⟨cs, a, eq_memPath hc, Path.address?_eq_some_iff.mp ha⟩
  | none =>
    rw [hc] at h
    obtain ⟨g, hg, -⟩ := Option.map_eq_some_iff.mp h
    exact .inl (mem_queryPaths_iff.mpr ⟨g, Gauge.ofName?_eq_some_iff.mp hg⟩)

theorem query_of_locates (m : Machine) {cs : List Char} {a : Word} (h : Path.Locates cs a) :
    m.query (memPath cs) = some (.byte (m.memory.read a)) := by
  rw [query_memPath, Path.address?_eq_some_iff.mpr h]
  rfl

theorem query_of_mem (m : Machine) {path : String} (h : path ∈ queryPaths) :
    ∃ g : Gauge, m.query path = some (g.read m) := by
  obtain ⟨g, rfl⟩ := mem_queryPaths_iff.mp h
  exact ⟨g, query_name g⟩

theorem query_of_other_case (m : Machine) {path name : String} (hn : name ∈ queryPaths)
    (hne : path ≠ name) (hl : path.toList.map Char.toLower = name.toList) :
    m.query path = none := by
  have hlower : ∀ p ∈ queryPaths, p.toList.map Char.toLower = p.toList := by decide
  have hcell : ∀ p ∈ queryPaths, Path.cell? p.toList = none := by decide
  cases hq : m.query path with
  | none => rfl
  | some r =>
    rcases m.query_cases hq with hp | ⟨cs, a, rfl, -⟩
    · rw [hlower path hp] at hl
      exact absurd (String.toList_inj.mp hl) hne
    · rw [toList_memPath] at hl
      have hnone := hcell name hn
      rw [← hl] at hnone
      cases hnone

/-- Paths with an answer are the names of the gauges and the paths to cells; the answer to a path
to a cell is the byte there, however the address is written. -/
theorem query_language (m : Machine) :
    (∀ path, (m.query path).isSome = true ↔
      path ∈ queryPaths ∨ ∃ cs a, path = memPath cs ∧ Path.Locates cs a) ∧
    (∀ cs a, Path.Locates cs a → m.query (memPath cs) = some (.byte (m.memory.read a))) ∧
    (∀ k cs, Path.Malformed cs → m.query (memPath (Path.marks k ++ cs)) = none) ∧
    ∀ path, ∀ name ∈ queryPaths, path ≠ name →
      path.toList.map Char.toLower = name.toList → m.query path = none := by
  refine ⟨?_, fun cs a h => m.query_of_locates h, ?_, fun path name => m.query_of_other_case⟩
  · intro path
    constructor
    · intro h
      obtain ⟨r, hr⟩ := Option.isSome_iff_exists.mp h
      exact m.query_cases hr
    · rintro (hp | ⟨cs, a, rfl, ha⟩)
      · obtain ⟨g, hg⟩ := m.query_of_mem hp
        rw [hg]
        rfl
      · rw [m.query_of_locates ha]
        rfl
  · intro k cs h
    rw [query_memPath, Path.address?_of_malformed h]
    rfl

/-- Two marks, a sign, leading zeros and digits of both cases; a mark behind a digit; a name in
capitals. -/
theorem query_of_odd_paths :
    let m := new (Memory.zero.write 0x00FF 0x5A)
    m.query "mem.0x0x+00fF" = some (.byte 0x5A) ∧ m.query "mem.0x00x1" = none ∧
      m.query "BC" = none := by
  intro m
  obtain ⟨-, hcell, hbad, hname⟩ := query_language m
  have h0 : Numeral.IsDigit '0' 0 := by decide
  refine ⟨?_, ?_, ?_⟩
  · have hf : Numeral.IsDigit 'f' 15 := by decide
    have hF : Numeral.IsDigit 'F' 15 := by decide
    have hs := (((Numeral.Spells.digit h0).snoc h0).snoc hf).snoc hF
    have h := hcell _ 0x00FF ⟨2, ['+'], _, rfl, by decide, hs⟩
    rwa [show m.memory.read 0x00FF = 0x5A from Memory.read_write_self _ _ _] at h
  · have hp : "mem.0x00x1" = memPath (Path.marks 1 ++ ['0', '0', 'x', '1']) := by decide
    rw [hp]
    exact hbad 1 _ (.markAfterDigit h0 ['1'])
  · exact hname "BC" "bc" (by decide) (by decide) (by decide)

end Machine

end Micro8080
