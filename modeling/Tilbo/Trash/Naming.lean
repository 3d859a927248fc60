import Tilbo.Lib.Words
import Mathlib.Algebra.Group.Nat.Defs
import Mathlib.Algebra.Ring.Int.Defs
import Mathlib.Data.Finset.Card
import Mathlib.Data.Finset.Range
import Mathlib.Data.Int.Notation
import Mathlib.Data.Nat.Find

/-! # The search for a name in the trash

`MoveToTrash` tries the name of the file and then longer and longer names, until `os.Stat` says of one that it does not
exist. Every other error is taken for a file that is there. `ends_iff` says when the search ends. It does if there is
room for the numbers and nothing is refused (`ends_of_room`), and does not if the file has the longest name there can be
and is in the trash already (`ends_iff_of_long`). Names are bytes. -/

namespace Tilbo.Trash.Naming

abbrev Name : Type := List UInt8

/-! ### Candidates -/

/-- `'.'`. -/
def dot : UInt8 := 0x2e

/-- `'/'`. -/
def slash : UInt8 := 0x2f

/-- `filepath.Ext`. -/
def ext (path : Name) : Name :=
  let last := path.rtakeWhile (· ≠ slash)
  if dot ∈ last then dot :: last.rtakeWhile (· ≠ dot) else []

/-- `strings.TrimSuffix`. -/
def trimSuffix (s suffix : Name) : Name := if suffix <:+ s then s.take (s.length - suffix.length) else s

/-- The counter in round `k`: a signed number of 64 bits. -/
def counter (k : ℕ) : ℤ := Int.bmod k (2 ^ 64)

/-- `%d`. -/
def decimal (i : ℤ) : Name := (toString i).toList.map fun c => c.toNat.toUInt8

/-- `trashName` in round `k`. -/
def trashName (base : Name) (k : ℕ) : Name :=
  if k = 0 then base else trimSuffix base (ext base) ++ 0x5f :: decimal (counter k) ++ ext base

/-! ### The trash -/

inductive Errno where
  /-- No such file: the only one for which `os.IsNotExist` holds. -/
  | noent
  | nametoolong
  | other (number : ℕ)
deriving DecidableEq

/-- What the directory has under a name; `os.Stat` follows links, and may fail to. -/
inductive Entry where
  | real
  | link (err : Option Errno)

/-- The directory `files`, with what the system refuses for any other reason. -/
structure Files where
  entries : List (Name × Entry)
  refuses : Name → Option Errno

/-- The length of the longest name. -/
def nameMax : ℕ := 255

/-- The error of `os.Stat`. -/
def Files.stat (files : Files) (name : Name) : Option Errno :=
  match files.refuses name with
  | some err => some err
  | none =>
    if nameMax < name.length then some .nametoolong
    else
      match files.entries.lookup name with
      | none => some .noent
      | some .real => none
      | some (.link err) => err

/-- The loop from round `k` on, for some rounds: nothing if it has not ended by then. -/
def search (files : Files) (base : Name) : ℕ → ℕ → Option Name
  | 0, _ => none
  | rounds + 1, k =>
    if files.stat (trashName base k) = some .noent then some (trashName base k) else search files base rounds (k + 1)

/-! ### What is to be shown -/

/-- The search ends, with a name. -/
def Ends (files : Files) (base : Name) : Prop := ∃ rounds name, search files base rounds 0 = some name

/-- A name is seen not to be there: the system says so for a reason of its own; or it refuses nothing, the name is not
too long, and it has no entry but a link that leads to nothing. -/
def Unused (files : Files) (name : Name) : Prop :=
  match files.refuses name with
  | some err => err = .noent
  | none => name.length ≤ nameMax ∧ ∀ entry, files.entries.lookup name = some entry → entry = .link (some .noent)

variable {files : Files} {base name : Name} {rounds k k' : ℕ}

theorem stat_eq_noent_iff : files.stat name = some .noent ↔ Unused files name := by
  unfold Files.stat Unused
  cases files.refuses name with
  | some err => simp
  | none =>
    by_cases hlong : nameMax < name.length
    · simp [hlong]
    · have hle : name.length ≤ nameMax := Nat.le_of_not_lt hlong
      simp only [if_neg hlong]
      cases files.entries.lookup name with
      | none => simp [hle]
      | some entry => cases entry <;> simp [hle]

/-- The search ends with the first name that is not used. -/
theorem search_eq_some_iff : search files base rounds k = some name ↔
    ∃ j < rounds, name = trashName base (k + j) ∧ Unused files name ∧
      ∀ i < j, ¬ Unused files (trashName base (k + i)) := by
  induction rounds generalizing k with
  | zero => simp [search]
  | succ rounds ih =>
    unfold search
    split_ifs with hstat
    · have hunused := stat_eq_noent_iff.mp hstat
      constructor
      · intro h
        cases h
        exact ⟨0, Nat.succ_pos _, rfl, hunused, fun i hi => absurd hi (Nat.not_lt_zero i)⟩
      · rintro ⟨j, -, rfl, -, hused⟩
        cases j with
        | zero => rfl
        | succ j => exact absurd hunused (hused 0 (Nat.succ_pos j))
    · have hunused : ¬ Unused files (trashName base k) := fun h => hstat (stat_eq_noent_iff.mpr h)
      rw [ih]
      constructor
      · rintro ⟨j, hj, hname, hfree, hused⟩
        refine ⟨j + 1, Nat.succ_lt_succ hj, by rw [hname]; congr 1; omega, hfree, fun i hi => ?_⟩
        cases i with
        | zero => exact hunused
        | succ i =>
          have h := hused i (by omega)
          rwa [Nat.add_assoc, Nat.add_comm 1] at h
      · rintro ⟨j, hj, hname, hfree, hused⟩
        cases j with
        | zero => exact absurd (hname ▸ hfree) hunused
        | succ j =>
          refine ⟨j, by omega, by rw [hname]; congr 1; omega, hfree, fun i hi => ?_⟩
          have h := hused (i + 1) (by omega)
          rwa [Nat.add_assoc, Nat.add_comm 1]

/-- **When the search ends.** -/
theorem ends_iff (files : Files) (base : Name) : Ends files base ↔ ∃ k, Unused files (trashName base k) := by
  classical
  constructor
  · rintro ⟨rounds, name, h⟩
    obtain ⟨j, -, rfl, hfree, -⟩ := search_eq_some_iff.mp h
    exact ⟨0 + j, hfree⟩
  · intro h
    refine ⟨Nat.find h + 1, trashName base (Nat.find h), search_eq_some_iff.mpr ⟨Nat.find h, Nat.lt_succ_self _, ?_⟩⟩
    refine ⟨by rw [Nat.zero_add], Nat.find_spec h, fun i hi => ?_⟩
    rw [Nat.zero_add]
    exact Nat.find_min h hi

/-! ### The candidates -/

theorem ext_suffix (name : Name) : ext name <:+ name := by
  unfold ext
  dsimp only
  split_ifs with hdot
  · exact (Tilbo.Lib.Words.cons_rtakeWhile_suffix hdot).trans (List.rtakeWhile_suffix _ _)
  · exact List.nil_suffix

/-- Stem and extension make up the name. -/
theorem stem_append_ext (name : Name) : trimSuffix name (ext name) ++ ext name = name := by
  rw [trimSuffix, if_pos (ext_suffix name)]
  exact List.suffix_iff_eq_append.mp (ext_suffix name)

theorem counter_of_lt (hk : k < 2 ^ 63) : counter k = k := by
  unfold counter
  rw [Int.bmod_def]
  omega

/-- The digits of a number, as bytes. -/
theorem decimal_natCast (k : ℕ) : decimal k = (Nat.toDigits 10 k).map fun c => c.toNat.toUInt8 := by
  have hdigits : (toString (k : ℤ)).toList = Nat.toDigits 10 k := Nat.toList_repr
  rw [decimal, hdigits]

theorem decimal_injective (h : decimal (k : ℤ) = decimal (k' : ℤ)) : k = k' := by
  have hback : ∀ n : ℕ, (decimal (n : ℤ)).map (fun b => Char.ofNat b.toNat) = Nat.toDigits 10 n := by
    intro n
    rw [decimal_natCast, List.map_map]
    refine (List.map_congr_left fun c hc => ?_).trans (List.map_id _)
    have hdigit : c.isDigit = true := Nat.isDigit_of_mem_toDigits (by decide) (by decide) hc
    have hlt : c.toNat < 256 := by
      simp only [Char.isDigit, Bool.and_eq_true, decide_eq_true_eq] at hdigit
      have h9 : c.val.toNat ≤ 57 := UInt32.le_iff_toNat_le.mp hdigit.2
      exact lt_of_le_of_lt h9 (by decide)
    simp only [Function.comp_apply, id_eq]
    rw [UInt8.toNat_ofNat', Nat.mod_eq_of_lt hlt, Char.ofNat_toNat]
  have hdigits := congrArg (List.map fun b => Char.ofNat b.toNat) h
  rw [hback, hback] at hdigits
  rw [← Nat.ofDigitChars_ten_toDigits (n := k), hdigits, Nat.ofDigitChars_ten_toDigits]

/-- A candidate is longer than the name by the numeral. -/
theorem length_trashName (hk : k ≠ 0) : (trashName base k).length = base.length + 1 + (decimal (counter k)).length := by
  have hlen := congrArg List.length (stem_append_ext base)
  rw [List.length_append] at hlen
  have hname : trashName base k = trimSuffix base (ext base) ++ 0x5f :: decimal (counter k) ++ ext base := if_neg hk
  rw [hname, List.length_append, List.length_append, List.length_cons]
  omega

theorem length_decimal_pos (i : ℤ) : 0 < (decimal i).length := by
  cases i with
  | ofNat n =>
    rw [Int.ofNat_eq_natCast, decimal_natCast, List.length_map]
    exact Nat.length_toDigits_pos
  | negSucc n =>
    have hsign : (toString (Int.negSucc n)).toList = '-' :: (toString (n + 1)).toList := String.toList_append
    rw [decimal, hsign]
    exact Nat.succ_pos _

theorem length_decimal_le (hk : k < 2 ^ 63) : (decimal (counter k)).length ≤ 19 := by
  rw [counter_of_lt hk, decimal_natCast, List.length_map, Nat.length_toDigits_le_iff (by decide) (by decide)]
  exact hk.trans (by decide)

/-- As long as the counter does not overflow, the candidates differ. -/
theorem trashName_inj (hk : k < 2 ^ 63) (hk' : k' < 2 ^ 63) (h : trashName base k = trashName base k') : k = k' := by
  have hlen := congrArg List.length h
  by_cases hzero : k = 0
  · by_cases hzero' : k' = 0
    · rw [hzero, hzero']
    · rw [length_trashName hzero', hzero] at hlen
      have hbase : (trashName base 0).length = base.length := rfl
      omega
  · by_cases hzero' : k' = 0
    · rw [length_trashName hzero, hzero'] at hlen
      have hbase : (trashName base 0).length = base.length := rfl
      omega
    · rw [trashName, trashName, if_neg hzero, if_neg hzero'] at h
      have hnumeral := List.append_cancel_left (List.append_cancel_right h)
      rw [counter_of_lt hk, counter_of_lt hk'] at hnumeral
      exact decimal_injective (List.cons.inj hnumeral).2

/-! ### Short and long names -/

/-- If there is room for the numbers and nothing is refused, the search ends after one round more than there are
entries. -/
theorem ends_of_room (hrefuses : ∀ name, files.refuses name = none) (hbase : base.length + 20 ≤ nameMax)
    (hentries : files.entries.length < 2 ^ 63) :
    ∃ rounds ≤ files.entries.length + 1, ∃ name, search files base rounds 0 = some name := by
  classical
  set n := files.entries.length
  have hsome : ∃ k ≤ n, Unused files (trashName base k) := by
    by_contra hnone
    push Not at hnone
    have hin : ∀ k ∈ Finset.range (n + 1), trashName base k ∈ (files.entries.map Prod.fst).toFinset := by
      intro k hk
      have hle : k ≤ n := Nat.lt_succ_iff.mp (Finset.mem_range.mp hk)
      have hlen : (trashName base k).length ≤ nameMax := by
        by_cases hzero : k = 0
        · subst hzero
          exact (Nat.le_add_right _ 20).trans hbase
        · rw [length_trashName hzero]
          have := length_decimal_le (hle.trans_lt hentries)
          omega
      have hused := hnone k hle
      unfold Unused at hused
      rw [hrefuses] at hused
      rw [List.mem_toFinset]
      by_contra hout
      have hnone : files.entries.lookup (trashName base k) = none := List.lookup_eq_none_iff.mpr fun e he =>
        bne_iff_ne.mpr fun heq => hout (heq ▸ List.mem_map_of_mem he)
      exact hused ⟨hlen, fun entry hentry => by rw [hnone] at hentry; cases hentry⟩
    have hcard := Finset.card_le_card_of_injOn (trashName base) hin fun k hk k' hk' h =>
      trashName_inj ((Nat.lt_succ_iff.mp (Finset.mem_range.mp hk)).trans_lt hentries)
        ((Nat.lt_succ_iff.mp (Finset.mem_range.mp hk')).trans_lt hentries) h
    have hle := List.toFinset_card_le (files.entries.map Prod.fst)
    rw [Finset.card_range] at hcard
    rw [List.length_map] at hle
    omega
  obtain ⟨k, hk, hfree⟩ := hsome
  have hex : ∃ k, Unused files (trashName base k) := ⟨k, hfree⟩
  have hmin : Nat.find hex ≤ k := Nat.find_min' hex hfree
  refine ⟨Nat.find hex + 1, by omega, trashName base (Nat.find hex), search_eq_some_iff.mpr ⟨Nat.find hex,
    Nat.lt_succ_self _, by rw [Nat.zero_add], Nat.find_spec hex, fun i hi => ?_⟩⟩
  rw [Nat.zero_add]
  exact Nat.find_min hex hi

/-- For a name that is as long as names can be, or shorter by one, the search ends at once or never. -/
theorem ends_iff_of_long (hrefuses : ∀ name, files.refuses name = none) (hbase : nameMax ≤ base.length + 1) :
    Ends files base ↔ Unused files base := by
  rw [ends_iff]
  refine ⟨fun ⟨k, hk⟩ => ?_, fun h => ⟨0, h⟩⟩
  by_cases hzero : k = 0
  · subst hzero
    exact hk
  · have hk' := hk
    unfold Unused at hk'
    rw [hrefuses] at hk'
    have hlen := hk'.1
    rw [length_trashName hzero] at hlen
    have hpos := length_decimal_pos (counter k)
    omega

/-- A name of 254 bytes. -/
def longName : Name := List.replicate 254 0x61

/-- A file with a long name is trashed for the second time. -/
theorem never_ends : ¬ Ends ⟨[(longName, .real)], fun _ => none⟩ longName := by
  intro h
  have hlong : nameMax ≤ longName.length + 1 := by rw [longName, List.length_replicate]; decide
  have hunused := (ends_iff_of_long (fun _ => rfl) hlong).mp h
  have hentry : [(longName, Entry.real)].lookup longName = some .real := List.lookup_cons_self
  cases hunused.2 .real hentry

end Tilbo.Trash.Naming
