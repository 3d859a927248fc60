import Tilbo.Xattr.Service

/-! # Tag lists written and read again

Which lists of tags `ReadTags` gives back as `WriteTags` got them: those in which no tag has a `\r\n`, and
whose last tag, if the writer leaves it without quotes, does not end in white space. -/

namespace Tilbo.Xattr.RoundTrip

open Tilbo.Daemon.State Tilbo.Xattr.Csv Tilbo.Xattr.Service Tilbo.Index.Schema Tilbo.Lib.Txn
open Tilbo.Lib.Txn.Prog

/-! ### Fields -/

variable {f g : List Char} {fs : List (List Char)} {tags : List String}

/-- The field has a `\r\n`, which the reader takes for a line break. -/
def HasCRLF (f : List Char) : Prop := ['\r', '\n'] <:+: f

theorem hasCRLF_cons {c : Char} {t : List Char} :
    HasCRLF (c :: t) ↔ (c = '\r' ∧ t.head? = some '\n') ∨ HasCRLF t := by
  rw [HasCRLF, List.infix_cons_iff, List.cons_prefix_cons]
  refine or_congr (and_congr eq_comm ?_) Iff.rfl
  cases t with
  | nil => simp
  | cons d t => simp [eq_comm]

theorem length_dropCR (f : List Char) : (dropCR f).length ≤ f.length := by
  induction f with
  | nil => exact le_rfl
  | cons c t ih =>
    rw [dropCR]
    split_ifs
    · exact ih.trans (Nat.le_succ _)
    · exact Nat.succ_le_succ ih

/-- The reader changes the fields with a `\r\n`, and no others. -/
theorem dropCR_eq_self : dropCR f = f ↔ ¬ HasCRLF f := by
  induction f with
  | nil => simp [dropCR, HasCRLF]
  | cons c t ih =>
    rw [dropCR, hasCRLF_cons, not_or]
    split_ifs with hc
    · have hlen := length_dropCR t
      refine iff_of_false (fun h => ?_) fun h => h.1 hc
      have hcons := congrArg List.length h
      rw [List.length_cons] at hcons
      omega
    · rw [List.cons_inj_right, ih]
      exact (and_iff_right hc).symm

theorem rdropWhile_eq_self : f.rdropWhile isSpace = f ↔ f.getLast?.any isSpace = false := by
  rw [List.rdropWhile_eq_self_iff]
  cases hf : f.getLast? with
  | none => simp [List.getLast?_eq_none_iff.mp hf]
  | some c =>
    have hne : f ≠ [] := fun h => by rw [h] at hf; cases hf
    have hlast : f.getLast hne = c := by rw [List.getLast?_eq_some_getLast hne] at hf; exact Option.some.inj hf
    simp [hne, hlast]

/-- The last field survives trimming: it is put in quotes, or does not end in white space. -/
def LastKept (f : List Char) : Prop := fieldNeedsQuotes f = true ∨ f.getLast?.any isSpace = false

theorem lastField_eq_self :
    dropCR (if fieldNeedsQuotes f then f else f.rdropWhile isSpace) = f ↔ ¬ HasCRLF f ∧ LastKept f := by
  unfold LastKept
  split_ifs with hq
  · rw [dropCR_eq_self]
    simp [hq]
  · have hlen := length_dropCR (f.rdropWhile isSpace)
    have hprefix := List.rdropWhile_prefix isSpace f
    simp only [hq, Bool.false_eq_true, false_or]
    constructor
    · intro h
      have hself : f.rdropWhile isSpace = f := hprefix.eq_of_length_le (by rw [h] at hlen; exact hlen)
      rw [hself] at h
      exact ⟨dropCR_eq_self.mp h, rdropWhile_eq_self.mp hself⟩
    · rintro ⟨hcr, hlast⟩
      rw [rdropWhile_eq_self.mpr hlast]
      exact dropCR_eq_self.mpr hcr

theorem length_storedFields : ∀ fs : List (List Char), (storedFields fs).length = fs.length
  | [] => rfl
  | [_] => rfl
  | _ :: g :: fs => congrArg Nat.succ (length_storedFields (g :: fs))

/-- Which records come back as they were. -/
theorem storedFields_eq_self : ∀ fs : List (List Char),
    storedFields fs = fs ↔ (∀ f ∈ fs, ¬ HasCRLF f) ∧ ∀ f, fs.getLast? = some f → LastKept f
  | [] => by simp [storedFields]
  | [f] => by
    rw [storedFields, List.singleton_inj, lastField_eq_self]
    simp
  | f :: g :: fs => by
    rw [storedFields, List.cons.injEq, dropCR_eq_self, storedFields_eq_self (g :: fs), List.getLast?_cons_cons,
      List.forall_mem_cons (l := g :: fs), and_assoc]
    · exact List.cons_ne_nil g fs

/-! ### Tags -/

/-- No tag has a `\r\n`, and the last one survives trimming. -/
def Survives (tags : List String) : Prop :=
  (∀ t ∈ tags, ¬ HasCRLF t.toList) ∧ ∀ t, tags.getLast? = some t → LastKept t.toList

/-- Which tags are stored as they are. -/
theorem stored_eq_self (hne : ∀ t ∈ tags, t ≠ "") : stored tags = tags ↔ Survives tags := by
  have hfields : Survives tags ↔ storedFields (tags.map String.toList) = tags.map String.toList := by
    rw [storedFields_eq_self, Survives]
    simp [List.getLast?_map]
  rw [hfields]
  constructor
  · intro h
    have hlists : (storedFields (tags.map String.toList)).filter (· ≠ []) = tags.map String.toList := by
      have hmap := congrArg (List.map String.toList) h
      rw [stored, List.map_map] at hmap
      simpa [Function.comp_def] using hmap
    have hlen : (storedFields (tags.map String.toList)).length ≤
        ((storedFields (tags.map String.toList)).filter (· ≠ [])).length := by
      rw [hlists, length_storedFields]
    rw [List.filter_sublist.eq_of_length_le hlen] at hlists
    exact hlists
  · intro h
    have hall : (tags.map String.toList).filter (· ≠ []) = tags.map String.toList := by
      refine List.filter_eq_self.mpr fun f hf => ?_
      obtain ⟨t, ht, rfl⟩ := List.mem_map.mp hf
      simpa using hne t ht
    rw [stored, h, hall, List.map_map]
    simp [Function.comp_def]

/-! ### The service -/

/-- `WriteTags`, and `ReadTags` on the same file. -/
def writeAndRead (path : String) (tags : List String) : Act (List String) := do
  writeTags path tags
  readTags path

/-- On a file whose attributes can be written and read, the stored tags come back. -/
theorem writeAndRead_eq {w : World} {path : String} (hfile : (w.files path).isSome) :
    (writeAndRead path tags ⟨w, []⟩).1 = .ok (stored tags) := by
  obtain ⟨file, hfile⟩ := Option.isSome_iff_exists.mp hfile
  let w' : World :=
    { w with files := Function.update w.files path (some { file with tags := some (formatTags tags) }) }
  have hwrite : writeTags path tags ⟨w, []⟩ = (.ok (), ⟨w', []⟩) := by
    simp [w', writeTags, ctxErr, Service.set, stmt, errorf, wrap, andThen, bind, hfile]
  have hget : Service.get path File.tags ⟨w', []⟩ = (.ok (formatTags tags), ⟨w', []⟩) := by
    simp [w', Service.get, stmt]
  have hread : readTags path ⟨w', []⟩ = (.ok (stored tags), ⟨w', []⟩) := by
    simp [readTags, ctxErr, stmt, andThen, bind, attempt, hget, parseTags_formatTags, pure, ret]
  simp [writeAndRead, bind, andThen, hwrite, hread]

/-- **A list of tags that is written reads as it was** exactly if it survives. -/
theorem writeAndRead_iff {w : World} {path : String} (hfile : (w.files path).isSome) (tags : List String)
    (hne : ∀ t ∈ tags, t ≠ "") : (writeAndRead path tags ⟨w, []⟩).1 = .ok tags ↔ Survives tags := by
  rw [writeAndRead_eq hfile, ← stored_eq_self hne]
  exact ⟨Except.ok.inj, congrArg Except.ok⟩

/-- Every path is a file without attributes. -/
def blankFiles : World where
  db := DB.empty
  files _ := some { stat := ⟨0, 0, 0, 0⟩ }
  graph := Graph.Edges.new
  nonRetryablePaths _ := false
  fileTagged := []

/-- A comma or a quote is kept, and so is a space at the end of a tag before the last. -/
theorem writeAndRead_iff_commas :
    (writeAndRead "/a" ["tag,with,commas", "b ", "normal"] ⟨blankFiles, []⟩).1 =
      .ok ["tag,with,commas", "b ", "normal"] ↔ Survives ["tag,with,commas", "b ", "normal"] :=
  writeAndRead_iff (show (blankFiles.files "/a").isSome from rfl) _ (by decide)

/-- A space at the end of the last tag is lost. -/
theorem trailing_space_lost : (∀ t ∈ ["a "], t ≠ "") ∧
    (writeAndRead "/a" ["a "] ⟨blankFiles, []⟩).1 = .ok ["a"] ∧ ["a"] ≠ ["a "] := by
  decide +kernel

end Tilbo.Xattr.RoundTrip
