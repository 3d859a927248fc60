import Tilbo.Index.StoreSpec

/-! # `ModifyFileTags` that stops half way

`"set"` runs in a transaction; `"add"` and `"remove"` go tag by tag, and what is done when a statement fails stays
done. `finished` are the tags that are done, and `modifyFileTags_atomic_iff` says when the file has its old tags all
the same. -/

namespace Tilbo.Index.PartialTags

open Tilbo.Index.Schema Tilbo.Index.Store Tilbo.Index.StoreSpec Tilbo.Lib.Rows Tilbo.Lib.Txn Tilbo.Lib.Txn.Prog

variable {s : DB} {fs : List Bool} {tags : List String} {op path name : String} {i : ℕ}

/-- The statements for one tag: a tag that is not known is not removed. -/
def statements (s : DB) (op name : String) : ℕ := if op = "remove" ∧ s.tagId name = none then 1 else 2

/-- The tags that are done when the first statement fails. -/
def finished (cost : String → ℕ) : List Bool → List String → List String
  | _, [] => []
  | fs, name :: rest => if true ∈ fs.take (cost name) then [] else name :: finished cost (fs.drop (cost name)) rest

/-- The tags of the file at the path. -/
def PathTagged (s : DB) (path n : String) : Prop := ∃ i, s.fileId path = some i ∧ s.Tagged i n

/-- An error leaves the tags of the file as they were, and otherwise they are what the operation makes of them. -/
def AllOrNothing (path : String) (tags : List String) (op : String) (c : Conn DB) : Prop :=
  ((∃ err, (modifyFileTags path tags op c).1 = .error err) →
    ∀ n, PathTagged (modifyFileTags path tags op c).2.store path n ↔ PathTagged c.store path n) ∧
  ((modifyFileTags path tags op c).1 = .ok () →
    ∀ n, PathTagged (modifyFileTags path tags op c).2.store path n ↔
      afterModify op tags (PathTagged c.store path) n)

/-- If a tag is not done, those that are done change nothing. -/
def Harmless (path : String) (tags : List String) (op : String) (c : Conn DB) : Prop :=
  op = "add" ∨ op = "remove" → ∀ i, c.store.fileId path = some i → c.faults.headD false = false →
    finished (statements c.store op) c.faults.tail tags ≠ tags →
    ∀ t ∈ finished (statements c.store op) c.faults.tail tags,
      (op = "add" → c.store.Tagged i t) ∧ (op = "remove" → ¬ c.store.Tagged i t)

/-! ### The loop -/

/-- What a step of the loop does for one tag: its statements go through or it changes nothing. -/
structure Step (op : String) (i : ℕ) (cost : String → ℕ) (I : DB → Prop) (f : String → Sql Unit) : Prop where
  spends : ∀ s name, I s → Spends (f name) s (cost name) fun _ => I
  wp : ∀ s name, I s → wp (f name) (fun _ s' => ∀ n, s'.Tagged i n ↔ afterModify op [name] (s.Tagged i) n)
    (fun _ s' => ∀ n, s'.Tagged i n ↔ s.Tagged i n) s

theorem afterModify_cons (hop : op = "add" ∨ op = "remove") {rest : List String} {old : String → Prop} {n : String} :
    afterModify op rest (afterModify op [name] old) n ↔ afterModify op (name :: rest) old n := by
  rcases hop with rfl | rfl
  · simp [afterModify_add, or_assoc]
  · simp [afterModify_remove, and_assoc]

theorem afterModify_nil (hop : op = "add" ∨ op = "remove") {old : String → Prop} {n : String} :
    afterModify op [] old n ↔ old n := by
  rcases hop with rfl | rfl
  · simp [afterModify_add]
  · simp [afterModify_remove]

/-- The loop does the tags that are `finished`, and goes through if these are all. -/
theorem each_finished {cost : String → ℕ} {I : DB → Prop} {f : String → Sql Unit} (hop : op = "add" ∨ op = "remove")
    (hstep : Step op i cost I f) (hI : I s) :
    ((each f tags ⟨s, fs⟩).1 = .ok () ↔ finished cost fs tags = tags) ∧
      ∀ n, (each f tags ⟨s, fs⟩).2.store.Tagged i n ↔ afterModify op (finished cost fs tags) (s.Tagged i) n := by
  induction tags generalizing s fs with
  | nil => exact ⟨by simp [finished, each, ret], fun n => (afterModify_nil hop).symm⟩
  | cons name tags ih =>
    have heach : each f (name :: tags) ⟨s, fs⟩ = andThen (f name) (fun _ => each f tags) ⟨s, fs⟩ := rfl
    unfold finished
    rw [heach, andThen]
    by_cases hfs : true ∈ fs.take (cost name)
    · obtain ⟨err, c, hrun⟩ := (hstep.spends s name hI fs).1 hfs
      rw [hrun, if_pos hfs]
      exact ⟨by simp, fun n => ((hstep.wp s name hI).error hrun n).trans (afterModify_nil hop).symm⟩
    · obtain ⟨_, s', hrun, hI'⟩ := (hstep.spends s name hI fs).2 hfs
      have htagged := (hstep.wp s name hI).ok hrun
      obtain ⟨hok, hdone⟩ := @ih s' (fs.drop (cost name)) hI'
      rw [hrun, if_neg hfs]
      refine ⟨by simpa using hok, fun n => (hdone n).trans ?_⟩
      rw [← afterModify_cons hop]
      rcases hop with rfl | rfl
      · simp only [afterModify_add, htagged]
      · simp only [afterModify_remove, htagged]

theorem step_add (hi : has FileRow.id s.files i = true) :
    Step "add" i (statements s "add") (fun s' => s'.files = s.files) (modifyAdd i) where
  spends s' name h := (spends_modifyAdd (h ▸ hi)).mono fun _ _ h' => h'.trans h
  wp s' name h := wp_modifyAdd (fun s₁ _ hn n => by simp [hn, afterModify_add])
    fun err s₁ hs₁ n => hs₁.tagged i n fun h => h

theorem step_remove : Step "remove" i (statements s "remove") (fun s' => ∀ n, s'.tagId n = s.tagId n)
    (modifyRemove i) where
  spends s' name h := by
    have hcost : statements s "remove" name = 1 + if s'.tagId name = none then 0 else 1 := by
      rw [h name, statements]
      split_ifs <;> simp_all
    rw [hcost]
    exact spends_modifyRemove.mono fun _ s₁ h' n => (h'.2 n).trans (h n)
  wp s' name h := wp_modifyRemove (fun s₁ _ hn n => by simp [hn, afterModify_remove]) fun err n => Iff.rfl

/-! ### The method -/

theorem modifyFileTags_found (hi : s.fileId path = some i) (hfs : fs.headD false = false) :
    modifyFileTags path tags op ⟨s, fs⟩ =
      (if op = "add" then each (modifyAdd i) tags
      else if op = "remove" then each (modifyRemove i) tags
      else if op = "set" then setFileTags i tags
      else fail (.message "index: unknown tag operation %q" [op])) ⟨s, fs.tail⟩ := by
  have hlookup : Store.errorf "index: modify tags: file not in index %q: %w" [path] (getFileIDByPath path) ⟨s, fs⟩ =
      (.ok i, ⟨s, fs.tail⟩) := by
    rcases fs with _ | ⟨b, fs⟩
    · simp [Store.errorf, wrap, getFileIDByPath, queryRow, stmt, hi]
    · obtain rfl : b = false := hfs
      simp [Store.errorf, wrap, getFileIDByPath, queryRow, stmt, hi]
  show andThen _ _ ⟨s, fs⟩ = _
  rw [andThen, hlookup]

/-- What `"add"` and `"remove"` do: the tags that are `finished`. -/
theorem modifyFileTags_run (hop : op = "add" ∨ op = "remove") (hi : s.fileId path = some i)
    (hfs : fs.headD false = false) :
    ((modifyFileTags path tags op ⟨s, fs⟩).1 = .ok () ↔ finished (statements s op) fs.tail tags = tags) ∧
      ∀ n, (modifyFileTags path tags op ⟨s, fs⟩).2.store.Tagged i n ↔
        afterModify op (finished (statements s op) fs.tail tags) (s.Tagged i) n := by
  rw [modifyFileTags_found hi hfs]
  rcases hop with rfl | rfl
  · obtain ⟨f, hf, -, hfi⟩ := s.valid.fileId_iff.mp hi
    exact each_finished (.inl rfl) (step_add (has_iff.mpr ⟨f, hf, hfi⟩)) rfl
  · exact each_finished (.inr rfl) step_remove fun _ => rfl

theorem pathTagged_iff (hi : s.fileId path = some i) (n : String) : PathTagged s path n ↔ s.Tagged i n := by
  unfold PathTagged
  rw [hi]
  simp

/-- The file keeps its id. -/
theorem fileId_kept (hi : s.fileId path = some i) :
    (modifyFileTags path tags op ⟨s, fs⟩).2.store.fileId path = some i := by
  rcases hrun : modifyFileTags path tags op ⟨s, fs⟩ with ⟨err | u, c'⟩
  · rcases wp_modifyFileTags.error hrun with h | ⟨-, j, -, h⟩
    · rw [show c'.store = s from h, hi]
    · exact (h.1.fileId path).trans hi
  · obtain ⟨-, j, -, hframe, -⟩ := wp_modifyFileTags.ok hrun
    exact (hframe.fileId path).trans hi

/-- Where the method does not go tag by tag, it does all of its work or none. -/
theorem allOrNothing_of_same (h : ∀ err c', modifyFileTags path tags op ⟨s, fs⟩ = (.error err, c') → c'.store = s) :
    AllOrNothing path tags op ⟨s, fs⟩ := by
  rcases hrun : modifyFileTags path tags op ⟨s, fs⟩ with ⟨err | u, c'⟩
  · unfold AllOrNothing
    rw [hrun, show c'.store = s from h err c' hrun]
    exact ⟨fun _ _ => Iff.rfl, nofun⟩
  · obtain ⟨-, i, hi, hframe, htags⟩ := wp_modifyFileTags.ok hrun
    unfold AllOrNothing
    rw [hrun]
    refine ⟨nofun, fun _ n => ?_⟩
    rw [pathTagged_iff ((hframe.fileId path).trans hi), htags, show PathTagged s path = s.Tagged i from
      funext fun n => propext (pathTagged_iff hi n)]

/-- What is done when a tag fails changes nothing if and only if all is done or nothing. -/
theorem allOrNothing_iff (path : String) (tags : List String) (op : String) (c : Conn DB) :
    AllOrNothing path tags op c ↔ Harmless path tags op c := by
  obtain ⟨s, fs⟩ := c
  by_cases hop : op = "add" ∨ op = "remove"
  swap
  · refine iff_of_true (allOrNothing_of_same fun err c' hrun => ?_) fun h => absurd h hop
    rcases wp_modifyFileTags.error hrun with h | ⟨h, -⟩
    · exact h
    · exact absurd h hop
  cases hi : s.fileId path with
  | none =>
    refine iff_of_true (allOrNothing_of_same fun err c' hrun => ?_) fun _ i h => absurd (hi.symm.trans h) nofun
    rcases wp_modifyFileTags.error hrun with h | ⟨-, i, h, -⟩
    · exact h
    · exact absurd (hi.symm.trans h) nofun
  | some i =>
    cases hfs : fs.headD false with
    | true =>
      refine iff_of_true (allOrNothing_of_same fun err c' hrun => ?_) fun _ i _ h => absurd (hfs.symm.trans h) nofun
      have hfail : modifyFileTags path tags op ⟨s, fs⟩ =
        (.error (.wrapped "index: modify tags: file not in index %q: %w"
          [path] (.wrapped "index: get file id for %q: %w" [path] .driver)), ⟨s, fs.tail⟩) := by
        rcases fs with _ | ⟨b, fs⟩
        · cases hfs
        · obtain rfl : b = true := hfs
          rfl
      rw [hfail] at hrun
      cases hrun
      rfl
    | false =>
      obtain ⟨hok, htags⟩ : _ ∧ _ := @modifyFileTags_run s fs tags op path i hop hi hfs
      have hold : ∀ n, PathTagged s path n ↔ s.Tagged i n := pathTagged_iff hi
      by_cases hall : finished (statements s op) fs.tail tags = tags
      · refine iff_of_true (allOrNothing_of_same fun err c' hrun => ?_) fun _ _ _ _ h => absurd hall h
        rw [hrun] at hok
        exact absurd (hok.mpr hall) nofun
      · have hnot : (modifyFileTags path tags op ⟨s, fs⟩).1 ≠ .ok () := fun h => hall (hok.mp h)
        have hnew : ∀ n, PathTagged (modifyFileTags path tags op ⟨s, fs⟩).2.store path n ↔
            afterModify op (finished (statements s op) fs.tail tags) (s.Tagged i) n := by
          intro n
          rw [pathTagged_iff (fileId_kept hi), htags]
        constructor
        · rintro ⟨herr, -⟩ - j hj - - t ht
          obtain rfl := Option.some.inj (hi.symm.trans hj)
          have hfails : ∃ err, (modifyFileTags path tags op ⟨s, fs⟩).1 = .error err := by
            cases hr : (modifyFileTags path tags op ⟨s, fs⟩).1 with
            | ok u => exact absurd hr hnot
            | error err => exact ⟨err, rfl⟩
          have hsame : ∀ n, afterModify op (finished (statements s op) fs.tail tags) (s.Tagged i) n ↔ s.Tagged i n :=
            fun n => (hnew n).symm.trans ((herr hfails n).trans (hold n))
          constructor
          · rintro rfl
            exact (hsame t).mp (.inr ht)
          · rintro rfl htagged
            exact ((hsame t).mpr htagged).2 ht
        · intro h
          refine ⟨fun _ n => ?_, fun hok' => absurd hok' hnot⟩
          rw [hnew, hold]
          have hdone := h hop i hi hfs hall
          rcases hop with rfl | rfl
          · rw [afterModify_add]
            exact or_iff_left_of_imp fun hn => (hdone n hn).1 rfl
          · rw [afterModify_remove]
            exact and_iff_left_of_imp fun htagged hn => (hdone n hn).2 rfl htagged

/-- **`ModifyFileTags` is all or nothing** unless it stops at a tag and one of those done before it was new (for
`"add"`) or there (for `"remove"`). -/
theorem modifyFileTags_atomic_iff (path : String) (tags : List String) (op : String) (c : Conn DB) :
    AllOrNothing path tags op c ↔ Harmless path tags op c := allOrNothing_iff path tags op c

/-! ### Two tags, and the second one fails -/

theorem untagged_valid : Tables.Valid { files := [⟨1, "/a", 0, 0, 0, 0, 0⟩] } := by decide

/-- One file without tags. -/
def untagged : DB := ⟨{ files := [⟨1, "/a", 0, 0, 0, 0, 0⟩] }, untagged_valid⟩

/-- The statements for the first tag go through, and the next one fails: the file has the first tag. -/
theorem half_added :
    (modifyFileTags "/a" ["x", "y"] "add" ⟨untagged, [false, false, false, true]⟩).1 =
        .error (.wrapped "index: upsert tag %q: %w" ["y"] .driver) ∧
      ¬ PathTagged untagged "/a" "x" ∧
      PathTagged (modifyFileTags "/a" ["x", "y"] "add" ⟨untagged, [false, false, false, true]⟩).2.store "/a" "x" := by
  refine ⟨rfl, ?_, ?_⟩
  · rw [pathTagged_iff (i := 1) rfl]
    rintro ⟨r, hr, -⟩
    cases hr
  · rw [pathTagged_iff (i := 1) rfl]
    exact ⟨⟨1, 1⟩, by decide, rfl, ⟨1, "x", 1⟩, by decide, rfl, rfl⟩

end Tilbo.Index.PartialTags
