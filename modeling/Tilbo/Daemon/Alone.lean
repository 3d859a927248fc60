import Tilbo.Daemon.Operations

/-! # Operations that run alone

An operation run from start to end with nothing in between, as one program. Its recorded calls are logged.
`Shows w path id X I G` says what the world shows of one file: its id, what its attribute reads as, its tags
in the index and its tags in the graph. There is one rule for each recorded call, and one for a steady
part. -/

namespace Tilbo.Daemon.Alone

open Tilbo.Daemon.State Tilbo.Daemon.Calls Tilbo.Daemon.Scripts Tilbo.Xattr.Csv Tilbo.Index.Schema
open Tilbo.Index Tilbo.Index.Store Tilbo.Index.StoreSpec Tilbo.Graph.Edges Tilbo.Lib.Txn Tilbo.Lib.Process
open Tilbo.Lib.Process.Proc

variable {F α β : Type}

/-- The call is recorded. -/
def recorded : Call F → Bool
  | .other => false
  | _ => true

/-- The operation as one program. -/
def alone (p : Op F α) : Prog (World × List (Call F)) OpError α := record recorded p

/-! ### Rules -/

section Rules
variable {p : Op F α} {f : α → Op F β} {w : World} {log : List (Call F)} {st : World × List (Call F)}
  {Q : α → World × List (Call F) → Prop} {R : β → World × List (Call F) → Prop}
  {E : OpError → World × List (Call F) → Prop}

theorem wp_alone_pure {a : α} (h : Q a st) : wp (alone (pure a : Op F α)) Q E st := wp_ret h

theorem wp_alone_fail {e : OpError} (h : E e st) : wp (alone (fail e : Op F α)) Q E st := wp_fail h

theorem wp_alone_andThen (h : wp (alone p) (fun a st => wp (alone (f a)) R E st) E st) :
    wp (alone (p >>= f)) R E st := by
  rw [alone, record_andThen]
  exact wp_andThen h

theorem wp_alone_attempt {Q : Except OpError α → World × List (Call F) → Prop}
    (h : wp (alone p) (fun a => Q (.ok a)) (fun e => Q (.error e)) st) :
    wp (alone (attempt p : Op F (Except OpError α))) Q E st := by
  rw [alone, record_attempt]
  exact wp_attempt h

theorem wp_alone_orElse {a : α} (h : wp (alone p) Q (fun _ => Q a) st) : wp (alone (orElse a p)) Q E st := by
  refine wp_alone_andThen (wp_alone_attempt (h.mono (fun b st' hb => ?_) fun e st' he => ?_))
  · exact wp_alone_pure hb
  · exact wp_alone_pure he

/-- A recorded call. -/
theorem wp_alone_call {label : Except OpError α → Call F} {m : Act α} (hm : Recorded label m)
    (hlabel : ∀ r, recorded (label r) = true)
    (hok : ∀ a w', Effect w (label (.ok a)) w' → Q a (w', log ++ [label (.ok a)]))
    (herr : ∀ e w', Effect w (label (.error e)) w' → E e (w', log ++ [label (.error e)])) :
    wp (alone (atom label m)) Q E (w, log) := by
  refine wp_record_atom ((hm w).mono (fun a w' h => ?_) fun e w' h => ?_)
  · simpa [List.filter, hlabel] using hok a w' h
  · simpa [List.filter, hlabel] using herr e w' h

/-- A steady part logs nothing and is quiet. -/
theorem wp_alone_steady (hp : Steady p) (hok : ∀ a w', Quiet w w' → Q a (w', log))
    (herr : ∀ e w', Quiet w w' → E e (w', log)) : wp (alone p) Q E (w, log) := by
  have hfollows := hp ⟨fun _ => False, .retag⟩ {}
  refine (hfollows.wp_record (fun _ st => Quiet w st.1 ∧ st.2 = log) ⟨Quiet.refl w, rfl⟩ ?_).mono ?_ ?_
  · rintro ph s tr l s' ⟨heffect, hscript⟩ ⟨hquiet, rfl⟩
    cases l with
    | other => exact ⟨hquiet.trans heffect, by simp [recorded]⟩
    | writeTags p tags diff r => cases diff <;> exact absurd hscript.1 id
    | deleteStaleFiles base since r => cases hscript
    | changeFiles before after => cases hscript
    | readTags | getFileIDByPath | getFileTags | deleteFile => exact absurd hscript id
    | evaluate | setFileTags | modifyFileTags | syncFileApply | setGraphTags | setxattrTags =>
      exact absurd hscript.1 id
  · rintro a ⟨w', log'⟩ ⟨ph', -, hquiet, rfl⟩
    exact hok a w' hquiet
  · rintro e ⟨w', log'⟩ ⟨ph', -, hquiet, rfl⟩
    exact herr e w' hquiet

end Rules

/-! ### What the world shows of a file -/

/-- The id of the file, what its attribute reads as, its tags in the index and in the graph. -/
structure Shows (w : World) (path : String) (id : Option ℕ) (X : Except ParseError (List String))
    (I G : String → Prop) : Prop where
  fileId : w.db.fileId path = id
  xattr : xattrTags w path = X
  index : ∀ n, IndexTag w path n ↔ I n
  graph : ∀ n, w.graph.HasEdge path n ↔ G n

section Shows
variable {w w' : World} {path : String} {id : Option ℕ} {X : Except ParseError (List String)}
  {I G : String → Prop} {tags : List String} {i : ℕ}

theorem Shows.refl (w : World) (path : String) : Shows w path (w.db.fileId path) (xattrTags w path)
    (IndexTag w path) (w.graph.HasEdge path) := ⟨rfl, rfl, fun _ => Iff.rfl, fun _ => Iff.rfl⟩

theorem Quiet.hasEdge (h : Quiet w w') {tag : String} :
    w'.graph.HasEdge path tag ↔ w.graph.HasEdge path tag := by
  unfold TagGraph.HasEdge
  rw [h.graph]

theorem Shows.quiet (h : Shows w path id X I G) (hq : Quiet w w') : Shows w' path id X I G where
  fileId := (hq.db.fileId path).trans h.fileId
  xattr := (hq.xattrTags path).trans h.xattr
  index n := hq.indexTag.trans (h.index n)
  graph n := (Quiet.hasEdge hq).trans (h.graph n)

theorem Shows.congr_index (h : Shows w path id X I G) {I' : String → Prop} (hI : ∀ n, I' n ↔ I n) :
    Shows w path id X I' G := { h with index := fun n => (h.index n).trans (hI n).symm }

/-- The tags of the index follow from the id and the tags of the row. -/
theorem indexTag_iff (hi : w.db.fileId path = some i) {n : String} :
    IndexTag w path n ↔ w.db.Tagged i n := by
  unfold IndexTag
  rw [hi]
  exact ⟨fun ⟨j, hj, ht⟩ => Option.some.inj hj ▸ ht, fun ht => ⟨i, rfl, ht⟩⟩

/-- A write of the attribute that goes through. -/
theorem Shows.writeTags (h : Shows w path id X I G) {diff : Option Rules.Engine.TagDiff}
    (he : Effect (F := F) w (.writeTags path tags diff (.ok ())) w') :
    Shows w' path id (.ok (stored tags)) I G := by
  obtain ⟨f, hf, rfl⟩ := he
  refine ⟨h.fileId, ?_, h.index, h.graph⟩
  simp [xattrTags, parseTags_formatTags]

theorem Shows.setxattrTags (h : Shows w path id X I G) {data : String}
    (he : Effect (F := F) w (.setxattrTags path data (.ok ())) w') :
    Shows w' path id (parseTags data) I G := by
  obtain ⟨f, hf, rfl⟩ := he
  refine ⟨h.fileId, ?_, h.index, h.graph⟩
  simp [xattrTags]

theorem Shows.setFileTags (h : Shows w path (some i) X I G)
    (he : Effect (F := F) w (.setFileTags path i tags (.ok ())) w') :
    Shows w' path (some i) X (· ∈ tags) G := by
  obtain ⟨db, rfl, hframe, ht⟩ := he
  have hid : db.fileId path = some i := (hframe.fileId path).trans h.fileId
  exact ⟨hid, h.xattr, fun n => (indexTag_iff hid).trans (ht n), h.graph⟩

theorem Shows.modifyFileTags (h : Shows w path id X I G) {op : String}
    (he : Effect (F := F) w (.modifyFileTags path tags op (.ok ())) w') :
    Shows w' path id X (afterModify op tags I) G := by
  obtain ⟨db, rfl, i, hi, hframe, ht⟩ := he
  have hid : db.fileId path = some i := (hframe.fileId path).trans hi
  have hI : w.db.Tagged i = I := funext fun n => propext ((indexTag_iff hi).symm.trans (h.index n))
  refine ⟨(hframe.fileId path).trans h.fileId, h.xattr, fun n => ?_, h.graph⟩
  rw [indexTag_iff hid, ht, hI]

/-- `ModifyFileTags` for one tag changes nothing if it fails. -/
theorem Shows.modifyFileTags_failed (h : Shows w path id X I G) {op tag : String} {e : OpError}
    (he : Effect (F := F) w (.modifyFileTags path [tag] op (.error e)) w') : Shows w' path id X I G := by
  obtain ⟨db, rfl, rfl | ⟨hop, i, hi, hpart⟩⟩ := he
  · exact h
  · have hid : db.fileId path = some i := (hpart.1.fileId path).trans hi
    refine ⟨(hpart.1.fileId path).trans h.fileId, h.xattr, fun n => ?_, h.graph⟩
    rw [indexTag_iff hid, hpart.short le_rfl hop, ← indexTag_iff hi]
    exact h.index n

theorem Shows.setGraphTags (h : Shows w path id X I G)
    (he : Effect (F := F) w (.setGraphTags path tags) w') : Shows w' path id X I (· ∈ tags) := by
  have he : w' = { w with graph := Graph.Edges.setFileTags w.graph path tags } := he
  subst he
  exact ⟨h.fileId, h.xattr, h.index, fun n => by simp [hasEdge_setFileTags]⟩

theorem Shows.syncFileApply (h : Shows w path id X I G) {stat : FileStat} {now : ℤ}
    (he : Effect (F := F) w (.syncFileApply path stat tags now (.ok i)) w') :
    Shows w' path (some i) X (· ∈ tags) G := by
  obtain ⟨db, rfl, md, sourceMap, ha⟩ := he
  exact ⟨ha.fileId, h.xattr, fun n => (indexTag_iff ha.fileId).trans (ha.tagged n), h.graph⟩

end Shows

/-! ### The other files -/

/-- The other files have the ids and the tags they had, in the index and in the graph. -/
structure Elsewhere (path : String) (w w' : World) : Prop where
  fileId : ∀ q, q ≠ path → w'.db.fileId q = w.db.fileId q
  index : ∀ q, q ≠ path → ∀ n, IndexTag w' q n ↔ IndexTag w q n
  graph : ∀ q, q ≠ path → ∀ n, w'.graph.HasEdge q n ↔ w.graph.HasEdge q n

section Elsewhere
variable {w w' w'' : World} {path : String} {db : DB} {i : ℕ}

theorem Elsewhere.refl (path : String) (w : World) : Elsewhere path w w :=
  ⟨fun _ _ => rfl, fun _ _ _ => Iff.rfl, fun _ _ _ => Iff.rfl⟩

theorem Elsewhere.trans (h : Elsewhere path w w') (h' : Elsewhere path w' w'') : Elsewhere path w w'' where
  fileId q hq := (h'.fileId q hq).trans (h.fileId q hq)
  index q hq n := (h'.index q hq n).trans (h.index q hq n)
  graph q hq n := (h'.graph q hq n).trans (h.graph q hq n)

theorem elsewhere_quiet (h : Quiet w w') : Elsewhere path w w' :=
  ⟨fun q _ => h.db.fileId q, fun _ _ _ => h.indexTag, fun _ _ _ => Quiet.hasEdge h⟩

theorem elsewhere_files {files : String → Option File} : Elsewhere path w { w with files := files } :=
  ⟨fun _ _ => rfl, fun _ _ _ => Iff.rfl, fun _ _ _ => Iff.rfl⟩

theorem elsewhere_frame (h : Frame (· = i) w.db db) (hi : w.db.fileId path = some i) :
    Elsewhere path w { w with db := db } := by
  refine ⟨fun q _ => h.fileId q, fun q hq n => ?_, fun _ _ _ => Iff.rfl⟩
  refine exists_congr fun j => ?_
  show db.fileId q = some j ∧ _ ↔ _
  rw [h.fileId]
  refine and_congr_right fun hj => h.tagged j n fun hji => hq (fileId_inj hj (hji ▸ hi))

theorem elsewhere_applied {stat : FileStat} {tags : List String} {md sourceMap : List (String × String)}
    {now : ℤ} (h : Applied path stat tags md sourceMap now i w.db db) :
    Elsewhere path w { w with db := db } := by
  refine ⟨fun q hq => h.fileId_other hq, fun q hq n => ?_, fun _ _ _ => Iff.rfl⟩
  refine exists_congr fun j => ?_
  show db.fileId q = some j ∧ _ ↔ _
  refine ⟨fun ⟨hj, ht⟩ => ?_, fun ⟨hj, ht⟩ => ?_⟩
  · have hji : j ≠ i := fun hji => hq (fileId_inj hj (hji ▸ h.fileId))
    exact ⟨(h.fileId_other hq).symm.trans hj, (h.taggedOther j n hji).mp ht⟩
  · have hj' : db.fileId q = some j := (h.fileId_other hq).trans hj
    have hji : j ≠ i := fun hji => hq (fileId_inj hj' (hji ▸ h.fileId))
    exact ⟨hj', (h.taggedOther j n hji).mpr ht⟩

/-- What is left after rows are removed: the tags of the files that are left. -/
theorem indexTag_removed {p : FileRow → Bool} (h : Removed p w.db db) {q n : String} :
    IndexTag { w with db := db } q n ↔ ∃ i, w.db.fileId q = some i ∧ w.db.Tagged i n ∧
      Statements.picks w.db.toTables p i = false := by
  refine exists_congr fun i => ?_
  show db.fileId q = some i ∧ db.Tagged i n ↔ _
  rw [h.fileId_iff, h.tagged]
  exact ⟨fun ⟨⟨hi, hp⟩, ht, _⟩ => ⟨hi, ht, hp⟩, fun ⟨hi, ht, hp⟩ => ⟨⟨hi, hp⟩, ht, hp⟩⟩

theorem elsewhere_removed (h : Removed (fun f => f.path = path) w.db db) :
    Elsewhere path w { w with db := db } := by
  have hkept : ∀ {q i}, q ≠ path → w.db.fileId q = some i →
      Statements.picks w.db.toTables (fun f => f.path = path) i = false := by
    intro q i hq hi
    obtain ⟨f, hf, rfl, rfl⟩ := w.db.valid.fileId_iff.mp hi
    exact Statements.picks_false_of_mem w.db.valid hf (by simpa using hq)
  refine ⟨fun q hq => Option.ext fun i => ?_, fun q hq n => indexTag_removed h |>.trans ?_,
    fun _ _ _ => Iff.rfl⟩
  · exact h.fileId_iff.trans (and_iff_left_of_imp (hkept hq))
  · exact exists_congr fun i => and_congr_right fun hi => and_iff_left (hkept hq hi)

/-- What a scripted call of an operation on one file does to the others, and to the id it looked up. -/
theorem effect_elsewhere {S : Script} {ph : Phase F} {l : Call F} (he : Effect w l w')
    (hscript : S.Scripted ph l) (hon : ∀ q, S.on q → q = path) (hpurge : S.request ≠ .purge)
    (hid : ∀ q i, ph.fileId = some (q, i) → w.db.fileId q = some i) :
    Elsewhere path w w' ∧ ∀ q i, (advance ph l).fileId = some (q, i) → w'.db.fileId q = some i := by
  have hquiet : Quiet w w' → Elsewhere path w w' ∧
      ∀ q i, ph.fileId = some (q, i) → w'.db.fileId q = some i :=
    fun hq => ⟨elsewhere_quiet hq, fun q i h => (hq.db.fileId q).trans (hid q i h)⟩
  have hsame : w' = w → Elsewhere path w w' ∧ ∀ q i, ph.fileId = some (q, i) → w'.db.fileId q = some i :=
    fun h => by
      subst h
      exact ⟨Elsewhere.refl path _, hid⟩
  have hframe : ∀ {db i}, w.db.fileId path = some i → Frame (· = i) w.db db →
      Elsewhere path w { w with db := db } ∧ ∀ q i, ph.fileId = some (q, i) → db.fileId q = some i :=
    fun hi h => ⟨elsewhere_frame h hi, fun q i hq => (h.fileId q).trans (hid q i hq)⟩
  cases l with
  | readTags p r => exact hquiet he.1
  | other => exact hquiet he
  | writeTags p tags diff r | setxattrTags p data r =>
    cases r with
    | error e => exact hsame he
    | ok _ =>
      obtain ⟨f, -, rfl⟩ := he
      exact ⟨elsewhere_files, hid⟩
  | changeFiles before after =>
    obtain ⟨-, rfl⟩ := he
    exact ⟨elsewhere_files, hid⟩
  | getFileTags p r =>
    cases r <;> exact hsame he.1
  | evaluate q r =>
    cases r <;> exact hsame he.1
  | getFileIDByPath p r =>
    obtain ⟨rfl, hr⟩ := he
    cases r with
    | error e => exact hsame rfl
    | ok i =>
      refine ⟨Elsewhere.refl path _, fun q j h => ?_⟩
      obtain ⟨rfl, rfl⟩ := Prod.mk.inj (Option.some.inj h)
      exact hr _ rfl
  | setFileTags p i tags r =>
    obtain ⟨db, rfl, h⟩ := he
    cases r with
    | error e =>
      subst h
      exact hsame rfl
    | ok _ => exact hframe (hon p hscript.1 ▸ hid p i hscript.2.2.1) h.1
  | modifyFileTags p tags op r =>
    obtain ⟨db, rfl, h⟩ := he
    cases r with
    | error e =>
      rcases h with rfl | ⟨-, i, hi, hpart⟩
      · exact hsame rfl
      · exact hframe (hon p hscript.1 ▸ hi) hpart.1
    | ok _ =>
      obtain ⟨i, hi, h, -⟩ := h
      exact hframe (hon p hscript.1 ▸ hi) h
  | syncFileApply p stat tags now r =>
    obtain ⟨db, rfl, h⟩ := he
    refine ⟨?_, fun q i h => by cases h⟩
    cases r with
    | error e =>
      subst h
      exact Elsewhere.refl path w
    | ok i =>
      obtain ⟨md, sourceMap, h⟩ := h
      exact elsewhere_applied (hon p hscript.1 ▸ h)
  | deleteFile p r =>
    obtain ⟨db, rfl, h⟩ := he
    refine ⟨?_, fun q i h => by cases h⟩
    cases r with
    | error e =>
      subst h
      exact Elsewhere.refl path w
    | ok _ => exact elsewhere_removed (hon p hscript ▸ h)
  | deleteStaleFiles base since r => exact absurd hscript hpurge
  | setGraphTags p tags =>
    have he : w' = { w with graph := Graph.Edges.setFileTags w.graph p tags } := he
    subst he
    refine ⟨⟨fun _ _ => rfl, fun _ _ _ => Iff.rfl, fun q hq n => ?_⟩, hid⟩
    rw [hasEdge_setFileTags, if_neg (hon p hscript.1 ▸ hq)]

end Elsewhere

end Tilbo.Daemon.Alone
