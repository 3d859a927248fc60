import Tilbo.Lib.Turns
import Tilbo.Daemon.Alone
import Tilbo.Daemon.Speech

/-! # Following the events

A client reads the tags of a file once and then applies the `FileTagged` events it hears of the file: it
adds what was added and takes away what was removed. `Heard` says that this gives the tags of the index.
`Announces` says for each operation when the events it sends, if any, tell what it does to the index. -/

namespace Tilbo.Daemon.Notices

open Tilbo.Daemon.State Tilbo.Daemon.Calls Tilbo.Daemon.Processor Tilbo.Daemon.Handlers
open Tilbo.Daemon.Scripts Tilbo.Daemon.Operations Tilbo.Daemon.Alone Tilbo.Daemon.Speech
open Tilbo.Rules.Engine Tilbo.Rules.Sweep Tilbo.Sync.SyncFile Tilbo.Fuse.Server Tilbo.Xattr.Service
open Tilbo.Harvester.Meta Tilbo.Index.Schema Tilbo.Index.Store Tilbo.Index.StoreSpec Tilbo.Lib.Pairs
open Tilbo.Lib.Txn Tilbo.Lib.Process Tilbo.Lib.Process.Proc

variable {F α β : Type} {w w' : World} {path : String}

/-- A call of the daemon as it happened. -/
abbrev Moment (F : Type) : Type := Seen World (Call F)

/-! ### What a client knows -/

/-- The tags after an event: with those added, without those removed. -/
def applyEvent (T : String → Prop) (ev : FileTagged) (n : String) : Prop := (T n ∨ n ∈ ev.added) ∧ n ∉ ev.removed

/-- The tags after some events, in order. -/
def applyEvents (T : String → Prop) (evs : List FileTagged) : String → Prop := evs.foldl applyEvent T

/-- What is to be seen of a file: its id and its tags in the index, and the events about it. -/
structure View where
  fileId : Option ℕ
  tags : String → Prop
  events : List FileTagged

def view (path : String) (w : World) : View :=
  ⟨w.db.fileId path, IndexTag w path, w.fileTagged.filter fun ev => ev.path = path⟩

/-- The events from one view to the next make up for the difference of the tags. -/
def Heard (v v' : View) : Prop := ∃ evs, v'.events = v.events ++ evs ∧ v'.tags = applyEvents v.tags evs

theorem Heard.refl (v : View) : Heard v v := ⟨[], (List.append_nil _).symm, rfl⟩

theorem Heard.trans {v v' v'' : View} (h : Heard v v') (h' : Heard v' v'') : Heard v v'' := by
  obtain ⟨evs, hevs, htags⟩ := h
  obtain ⟨evs', hevs', htags'⟩ := h'
  refine ⟨evs ++ evs', by rw [hevs', hevs, List.append_assoc], ?_⟩
  rw [htags', htags, applyEvents, applyEvents, applyEvents, List.foldl_append]

/-- One event. -/
theorem heard_event {v v' : View} (ev : FileTagged) (hevents : v'.events = v.events ++ [ev])
    (htags : ∀ n, v'.tags n ↔ applyEvent v.tags ev n) : Heard v v' :=
  ⟨[ev], hevents, funext fun n => propext (htags n)⟩

/-! ### The condition -/

/-- The last query of the operation for tags went through. -/
def lastQueryOk (h : List (Moment F)) : Bool :=
  ((h.filterMap fun c => match c.label with
    | .getFileTags _ r => some r.isOk
    | _ => none).getLast?).getD false

/-- The evaluation whose tags the operation last wrote to an attribute. -/
def lastDiff (h : List (Moment F)) : Option TagDiff :=
  (h.filterMap fun c => match c.label with
    | .writeTags _ _ diff _ => diff
    | _ => none).getLast?

/-- A change of the index by a tag request: the tags before are known, or are not needed to say what was added
and removed; and if it fails, all tags of the request but the last are where they are wanted already. -/
def RequestAnnounced (path : String) (h : List (Moment F)) (c : Moment F) : Prop :=
  ∀ tags op r, c.label = .modifyFileTags path tags op r →
    if r.isOk then
      lastQueryOk h = true ∨ op = "add" ∨ (op = "remove" ∧ ∀ t ∈ tags, ¬ IndexTag c.before.store path t) ∨
        (op = "set" ∧ ∀ n, IndexTag c.before.store path n → n ∈ tags)
    else op ≠ "set" → ∀ t ∈ tags.dropLast, (IndexTag c.before.store path t ↔ op = "add")

/-- A change of the index by the processor: apart from the tags of the rules, the index had the tags that
are written to it. -/
def RulesAnnounced (path : String) (h : List (Moment F)) (c : Moment F) : Prop :=
  ∀ i tags diff, c.label = .setFileTags path i tags (.ok ()) → lastDiff h = some diff →
    ∀ n, n ∉ diff.added → (IndexTag c.before.store path n ↔ n ∈ tags)

/-- A change of the index that is not announced gives it the tags it has. -/
def Unchanged (path : String) (c : Moment F) (tags : List String) : Prop :=
  ∀ n, IndexTag c.before.store path n ↔ n ∈ tags

/-- A change of the index by a rename, to the directory with these tags: it takes away no tag but theirs, adds none
that the file had not at the start, and a tag it has taken away can be added again. -/
def MoveAnnounced (path : String) (dstTags : List String) (h : List (Moment F)) (c : Moment F) : Prop :=
  ∀ t op r, c.label = .modifyFileTags path [t] op r →
    if op = "remove" then r.isOk → IndexTag c.before.store path t → t ∈ dstTags
    else if r.isOk then IndexTag (h.headD c).before.store path t
    else IndexTag (h.headD c).before.store path t → IndexTag c.before.store path t

/-- The condition on a call of an operation, after its calls so far. -/
def Announces (path : String) (h : List (Moment F)) (c : Moment F) : Operation F → Prop
  | .handleTag _ _ _ => RequestAnnounced path h c
  | .processFile _ | .handleAsyncResult _ _ _ => RulesAnnounced path h c
  | .sweepFile _ => ∀ i tags, c.label = .setFileTags path i tags (.ok ()) → Unchanged path c tags
  | .syncFile _ _ => ∀ stat tags now i, c.label = .syncFileApply path stat tags now (.ok i) → Unchanged path c tags
  | .rename _ _ newParent =>
    MoveAnnounced path ((newParent.bind fun d => simpleTagsFromExpr d.expr).getD []) h c
  | _ => True

/-! ### Parts that are not seen -/

section Rules
variable {C : List (Moment F) → Moment F → Prop} {h : List (Moment F)} {v : View}

theorem view_quiet (hq : Quiet w w') (hs : w'.fileTagged = w.fileTagged) : view path w' = view path w := by
  have htags : IndexTag w' path = IndexTag w path := funext fun n => propext hq.indexTag
  rw [view, view, hq.db.fileId, htags, hs]

/-- A recorded call. -/
theorem through_recorded {label : Except OpError α → Call F} {m : Act α} (hm : Recorded label m) (hs : Still m)
    {Q : Except OpError α → List (Moment F) → View → Prop}
    (hQ : ∀ (c : Moment F) r, c.label = label r → view path c.before.store = v →
      Effect c.before.store (label r) c.after → c.after.fileTagged = c.before.store.fileTagged → C h c →
      Q r (h ++ [c]) (view path c.after)) : Through (view path) C (atom label m) Q h v := by
  refine through_atom fun c hv hc => hQ ⟨c, _, _⟩ _ rfl hv ?_ (hs.run c) hc
  have heffect := hm c.store c.faults
  revert heffect
  cases m c with
  | mk r c' => cases r <;> exact id

/-- A recorded call that is not seen. -/
theorem through_unseen {label : Except OpError α → Call F} {m : Act α} (hm : Recorded label m) (hs : Still m)
    (hview : ∀ w r w', Effect w (label r) w' → w'.fileTagged = w.fileTagged → view path w' = view path w)
    {Q : Except OpError α → List (Moment F) → View → Prop}
    (hQ : ∀ (c : Moment F) r, c.label = label r → view path c.before.store = v →
      Effect c.before.store (label r) c.after → Q r (h ++ [c]) v) :
    Through (view path) C (atom label m) Q h v := by
  refine through_recorded hm hs fun c r hlabel hv heffect hsame _ => ?_
  rw [hview c.before.store r c.after heffect hsame, hv]
  exact hQ c r hlabel hv heffect

theorem through_orElse {p : Op F α} {a : α} {Q : Except OpError α → List (Moment F) → View → Prop}
    (hp : Through (view path) C p (fun r h' v' => Q (.ok (r.toOption.getD a)) h' v') h v) :
    Through (view path) C (orElse a p) Q h v := by
  refine through_andThen (through_attempt (hp.mono fun r h' v' hr => ?_))
  cases r <;> exact hr

/-- A steady part that sends no event. -/
theorem through_steady {p : Op F α} {R : Except OpError α → Prop}
    (hp : ∀ (S : Script) (ph : Phase F), Follows S.protocol p (fun r _ => R r) ph)
    (hspeaks : Speaks (fun _ => False) p) :
    Through (view path) C p (fun r h' v' => v' = v ∧ (∃ t, h' = h ++ t ∧ ∀ c ∈ t, c.label = .other) ∧ R r) h v := by
  refine ((hp ⟨fun _ => False, .retag⟩ {}).both hspeaks |>.through (K := (· = .other)) ?_).mono ?_
  · rintro ph w l w' ⟨⟨heffect, hscript⟩, ⟨evs, hevs, hheard⟩, -⟩
    have hnone : evs = [] := List.eq_nil_iff_forall_not_mem.mpr fun ev hev => hheard ev hev
    have hsame : w'.fileTagged = w.fileTagged := by rw [hevs, hnone, List.append_nil]
    cases l with
    | other => exact ⟨view_quiet heffect hsame, rfl⟩
    | writeTags p tags diff r => cases diff <;> exact absurd hscript.1 id
    | deleteStaleFiles base since r => cases hscript
    | changeFiles before after => cases hscript
    | readTags | getFileIDByPath | getFileTags | deleteFile => exact absurd hscript id
    | evaluate | setFileTags | modifyFileTags | syncFileApply | setGraphTags | setxattrTags =>
      exact absurd hscript.1 id
  · rintro r h' v' ⟨rfl, ht, ph', hR, -⟩
    exact ⟨rfl, ht, hR⟩

end Rules

/-! ### Parts after which the events tell everything -/

/-- Started with such a view, the process ends with the tags told by the events. -/
def Tells (path : String) (C : List (Moment F) → Moment F → Prop) (K : View → Prop) (p : Op F α) : Prop :=
  ∀ h v, K v → Through (view path) C p (fun _ _ v' => Heard v v') h v

/-- The process is not seen. -/
def Unseen (path : String) (p : Op F α) : Prop :=
  ∀ (C : List (Moment F) → Moment F → Prop) h v, Through (view path) C p (fun _ _ v' => v' = v) h v

section Tells
variable {C : List (Moment F) → Moment F → Prop} {K : View → Prop} {p : Op F α} {f : α → Op F β}

theorem unseen_steady (hp : Steady p) (hspeaks : Speaks (fun _ => False) p) : Unseen path p := fun _ _ _ =>
  (through_steady (R := fun _ => True) (fun S ph => (hp S ph).mono fun _ _ _ => trivial) hspeaks).mono
    fun _ _ _ h => h.1

theorem unseen_recorded {label : Except OpError α → Call F} {m : Act α} (hm : Recorded label m) (hs : Still m)
    (hview : ∀ w r w', Effect w (label r) w' → w'.fileTagged = w.fileTagged → view path w' = view path w) :
    Unseen path (atom label m) := fun _ _ _ => through_unseen hm hs hview fun _ _ _ _ _ => rfl

theorem unseen_orElse {a : α} (hp : Unseen path p) : Unseen path (orElse a p) :=
  fun C h v => through_orElse (hp C h v)

theorem tells_unseen (hp : Unseen path p) : Tells path C K p :=
  fun h v _ => (hp C h v).mono fun _ _ _ hv => hv ▸ Heard.refl v

theorem tells_then (hp : Unseen path p) (hf : ∀ a, Tells path C K (f a)) : Tells path C K (p >>= f) := by
  refine fun h v hK => through_andThen ((hp C h v).mono fun r h' v' hv => ?_)
  subst hv
  cases r with
  | ok a => exact hf a h' v' hK
  | error e => exact Heard.refl v'

theorem tells_attempt (hp : Tells path C K p) : Tells path C K (attempt p : Op F (Except OpError α)) :=
  fun h v hK => through_attempt (hp h v hK)

/-- One part after the other, if any view will do for the second. -/
theorem tells_andThen (hp : Tells path C K p) (hf : ∀ a, Tells path C (fun _ => True) (f a)) :
    Tells path C K (p >>= f) := by
  refine fun h v hK => through_andThen ((hp h v hK).mono fun r h' v' hv => ?_)
  cases r with
  | ok a => exact (hf a h' v' trivial).mono fun _ _ _ hv' => hv.trans hv'
  | error e => exact hv

end Tells

/-! ### The processor -/

section Processor
variable (P : Platform F) (env : Env F) {C : List (Moment F) → Moment F → Prop} {i : ℕ}

/-- The file is in the index under the id. -/
def Known (i : ℕ) (v : View) : Prop := v.fileId = some i

theorem unseen_readTags {m : Act (List String)} (hm : Recorded (F := F) (.readTags path) m) (hs : Still m) :
    Unseen path (atom (.readTags path) m : Op F (List String)) :=
  unseen_recorded hm hs fun _ _ _ he => view_quiet he.1

theorem unseen_readOverrides (md : MetaMap F) (existingTags : List String) :
    Unseen path (readOverrides env path i md existingTags) := by
  refine unseen_recorded recorded_evaluate (still_onIndex _) fun w r w' he _ => ?_
  rw [he.1]

/-- Telling the graph always succeeds. -/
theorem through_setGraphTags {tags : List String} {h : List (Moment F)} {v : View}
    {Q : Except OpError Unit → List (Moment F) → View → Prop} (hQ : ∀ h', Q (.ok ()) h' v) :
    Through (view path) C (setGraphTags path tags) Q h v := fun _ hv _ => hv ▸ hQ _

/-- An event. -/
theorem through_onFileTagged {added removed : List String} {h : List (Moment F)} {v : View}
    {Q : Except OpError Unit → List (Moment F) → View → Prop}
    (hQ : ∀ h', Q (.ok ()) h' { v with events := v.events ++ [⟨path, added, removed⟩] }) :
    Through (view path) C (call (onFileTagged path added removed)) Q h v := by
  intro c hv _
  have hevent : view path { c.store with fileTagged := c.store.fileTagged ++ [⟨path, added, removed⟩] } =
      { v with events := v.events ++ [⟨path, added, removed⟩] } := by
    subst hv
    simp only [view, List.filter_append]
    simp only [List.filter_cons, List.filter_nil, decide_true, if_true]
    rfl
  exact hevent ▸ hQ _

/-- The lookup of the id. -/
theorem tells_lookup {f : Except OpError ℕ → Op F β}
    (hok : ∀ i, Tells path C (Known i) (f (.ok i))) (herr : ∀ e, Tells path C (fun _ => True) (f (.error e))) :
    Tells path C (fun _ => True) (attempt (lookupFileID path) >>= f) := by
  intro h v _
  refine through_andThen (through_attempt (through_unseen recorded_getFileIDByPath (still_onIndex _)
    (fun w r w' he _ => by rw [he.1]) fun c r _ hv he => ?_))
  cases r with
  | error e => exact herr e _ v trivial
  | ok j =>
    refine hok j _ v ?_
    rw [← hv]
    exact he.2 j rfl

/-- Recording the sources of tags always succeeds. -/
theorem follows_recordSources {S : Script} {ph : Phase F} (i : ℕ) (sources : List (String × String)) :
    Follows S.protocol (recordSources env i sources) (fun r _ => r = .ok ()) ph := by
  refine follows_each (fun _ => True) (fun ts _ ph' _ => ?_) trivial fun _ _ => rfl
  refine follows_andThen (follows_attempt ((steady_call isQuiet_upsertTag S ph').mono fun r ph'' _ => ?_))
  cases r with
  | error _ => trivial
  | ok t =>
    refine follows_andThen (follows_attempt ((steady_call isQuiet_setProvenance S ph'').mono fun r ph₃ _ => ?_))
    cases r <;> trivial

theorem lastDiff_other {h t : List (Moment F)} (ht : ∀ c ∈ t, c.label = .other) : lastDiff (h ++ t) = lastDiff h := by
  have hnone : (t.filterMap fun c => match c.label with
      | .writeTags _ _ diff _ => diff
      | _ => none) = [] := List.filterMap_eq_nil_iff.mpr fun c hc => by rw [ht c hc]
  rw [lastDiff, List.filterMap_append, hnone, List.append_nil, lastDiff]

theorem lastDiff_written {h : List (Moment F)} {c : Moment F} {p : String} {tags : List String} {diff : TagDiff}
    {r : Except OpError Unit} (hc : c.label = .writeTags p tags (some diff) r) : lastDiff (h ++ [c]) = some diff := by
  simp [lastDiff, hc]

/-- `applyDiff` tells of the tags the rules added. -/
theorem tells_applyDiff (hC : ∀ h c, C h c → RulesAnnounced path h c) (existingTags : List String) (diff : TagDiff) :
    Tells path C (Known i) (applyDiff P env path i existingTags diff) := by
  intro h v hi
  refine through_andThen (through_unseen (recorded_writeTags.errorf fun _ _ _ _ h => h)
    (still_errorf still_writeTags) ?_ fun c₁ r hlabel _ _ => ?_)
  · intro w r w' he _
    cases r with
    | error e => rw [show w' = w from he]
    | ok _ =>
      obtain ⟨f, -, rfl⟩ := he
      rfl
  cases r with
  | error e => exact Heard.refl v
  | ok _ =>
  refine through_andThen ((through_steady (fun S ph => (follows_updateSource P path _).mono fun _ _ h => h.2)
    (speaks_updateSource P _)).mono ?_)
  rintro r h₂ v ⟨rfl, ⟨t, rfl, ht⟩, rfl⟩
  refine through_andThen (through_recorded (recorded_setFileTags.errorf fun _ _ _ _ h => h)
    (still_errorf (still_onIndex _)) fun c₃ r hlabel₃ hv he hsame hc₃ => ?_)
  obtain ⟨db, hafter, he⟩ := he
  cases r with
  | error e =>
    have hsame : c₃.after = c₃.before.store := by rw [hafter, show db = c₃.before.store.db from he]
    rw [hsame, hv]
    exact Heard.refl v
  | ok _ =>
  obtain ⟨hframe, htagged⟩ := he
  have hid : c₃.after.db.fileId path = some i := by
    rw [hafter]
    exact (hframe.fileId path).trans (by rw [← hi, ← hv]; rfl)
  have htags : ∀ n, IndexTag c₃.after path n ↔ n ∈ existingTags ++ diff.added := by
    rw [hafter] at hid ⊢
    exact fun n => (indexTag_iff hid).trans (htagged n)
  have hdiff : lastDiff (h ++ [c₁] ++ t) = some diff := by rw [lastDiff_other ht, lastDiff_written hlabel]
  have hannounced := hC _ _ hc₃ i _ diff hlabel₃ hdiff
  refine through_andThen (through_setGraphTags fun h₄ => ?_)
  refine through_andThen ((through_steady (fun S ph => follows_recordSources env i _)
    (speaks_recordSources env i _)).mono ?_)
  rintro r h₅ v₅ ⟨rfl, -, rfl⟩
  refine through_onFileTagged fun h₆ => heard_event ⟨path, diff.added, []⟩ ?_ fun n => ?_
  · have hevents : (view path c₃.after).events = (view path c₃.before.store).events := by
      rw [view, view, hsame]
    rw [hevents, hv]
  · show IndexTag c₃.after path n ↔ (v.tags n ∨ n ∈ diff.added) ∧ n ∉ []
    rw [htags, ← hv]
    by_cases hn : n ∈ diff.added
    · simp [hn]
    · have hbefore := hannounced n hn
      simpa [hn, view] using hbefore.symm

/-- An error that ends the operation, or is dropped. -/
theorem unseen_consume (err : OpError) {done : Op F Unit} (hdone : Unseen path done) : Unseen path (do
    if ← consumeNonRetryablePathErr env path err then return ()
    else done) := by
  refine fun C h v => through_andThen ((unseen_steady (steady_consumeNonRetryablePathErr env path err)
    (speaks_consume env err) C h v).mono fun r h' v' hv => ?_)
  cases r with
  | error e => exact hv
  | ok b =>
    cases b with
    | false => exact hv ▸ hdone C h' v'
    | true => exact hv

theorem tells_evalAndApply_ok (hC : ∀ h c, C h c → RulesAnnounced path h c) (existingTags : List String)
    (md : MetaMap F) : Tells path C (Known i) (evalAndApply P env path (.ok i) existingTags md) := by
  refine tells_then (fun C h v => through_attempt (unseen_readOverrides env md existingTags C h v)) fun r => ?_
  cases r with
  | error err =>
    exact tells_unseen (unseen_consume env err (unseen_steady (steady_fail _) (speaks_fail _)))
  | ok overrides =>
    refine tells_then (unseen_steady (steady_updateEmbedding env path i existingTags md)
      (speaks_updateEmbedding env i existingTags md)) fun _ => ?_
    split_ifs
    · exact tells_unseen fun _ _ _ => rfl
    · exact tells_applyDiff P env hC existingTags _

theorem unseen_evalAndApply_error (err : OpError) (existingTags : List String) (md : MetaMap F) :
    Unseen path (evalAndApply P env path (.error err) existingTags md) := by
  refine unseen_consume env err ?_
  split_ifs
  · exact fun _ _ _ => rfl
  · exact fun _ _ _ => rfl

theorem tells_processFile (hC : ∀ h c, C h c → RulesAnnounced path h c) :
    Tells path C (fun _ => True) (processFile P env path) := by
  refine tells_then (unseen_readTags (recorded_readTags_errorf path) (still_errorf fun _ => keeps_readTags))
    fun existingTags => ?_
  refine tells_then (unseen_steady (steady_call (isQuiet_errorf isQuiet_readAllMeta))
    (speaks_call (still_errorf fun _ => keeps_readAllMeta))) fun existingMeta => ?_
  dsimp only
  split
  · exact tells_unseen fun _ _ _ => rfl
  · rename_i md additional _
    have hpersist : ∀ idErr : Except OpError ℕ, Unseen path (attempt (mergeAndPersistMeta P env path
        (idErr.toOption.getD 0) idErr.isOk "harvester" md additional) : Op F (Except OpError (MetaMap F))) :=
      fun idErr => unseen_steady (steady_attempt (steady_mergeAndPersistMeta P env path _ _ _ _ _))
        (speaks_attempt (speaks_mergeAndPersistMeta P env _ _ _ _ _))
    have hconsume : ∀ {K : View → Prop} (err : OpError), Tells path C K (do
        if ← consumeNonRetryablePathErr env path err then return () else fail err) :=
      fun err => tells_unseen (unseen_consume env err fun _ _ _ => rfl)
    refine tells_lookup (fun i => tells_then (hpersist _) fun r => ?_) fun e => tells_then (hpersist _) fun r => ?_
    · cases r with
      | error err => exact hconsume err
      | ok md => exact tells_evalAndApply_ok P env hC existingTags md
    · cases r with
      | error err => exact hconsume err
      | ok md => exact tells_unseen (unseen_evalAndApply_error P env e existingTags md)

/-- An operation that is run unless the path is marked. -/
theorem tells_guarded {m : Op F Unit} (hm : Tells path C (fun _ => True) m) : Tells path C (fun _ => True) (do
    if ← preparePath env path then
      match ← (attempt m : Op F (Except OpError Unit)) with
      | .ok _ => return ()
      | .error err =>
        let _ ← consumeNonRetryablePathErr env path err
        return ()
    else return ()) := by
  refine tells_then (unseen_steady (steady_preparePath env path) (speaks_preparePath env)) fun b => ?_
  cases b with
  | false => exact tells_unseen fun _ _ _ => rfl
  | true =>
    refine tells_andThen (tells_attempt hm) fun r => ?_
    cases r with
    | ok _ => exact tells_unseen fun _ _ _ => rfl
    | error err =>
      exact tells_unseen (unseen_steady (steady_andThen (steady_consumeNonRetryablePathErr env path err) fun _ =>
        steady_pure ()) (speaks_andThen (speaks_consume env err) fun _ => speaks_pure ()))

theorem tells_asyncUpdate (hC : ∀ h c, C h c → RulesAnnounced path h c) (harvesterName : String)
    (asyncMeta : List (String × MetaValue F)) :
    Tells path C (fun _ => True) (asyncUpdate P env path harvesterName asyncMeta) := by
  have hok : ∀ i, Tells path C (Known i) (do
      let existingTags ← orElse [] (atom (.readTags path) (readTags path))
      let existingMeta ← orElse [] (call (readAllMeta path))
      let md ← mergeAndPersistMeta P env path i true harvesterName (parseStoredMeta P existingMeta) asyncMeta
      let overrides ← readOverrides env path i md existingTags
      let diff := eval env.rules env.order md existingTags overrides
      if diff.added = [] then return ()
      else
        updateEmbedding env path i existingTags md
        applyDiff P env path i existingTags diff) := by
    intro i
    refine tells_then (unseen_orElse (unseen_readTags recorded_readTags fun _ => keeps_readTags))
      fun existingTags => ?_
    refine tells_then (unseen_steady (steady_orElse (steady_call isQuiet_readAllMeta))
      (speaks_orElse (speaks_call fun _ => keeps_readAllMeta))) fun existingMeta => ?_
    refine tells_then (unseen_steady (steady_mergeAndPersistMeta P env path _ _ _ _ _)
      (speaks_mergeAndPersistMeta P env _ _ _ _ _)) fun md => ?_
    refine tells_then (unseen_readOverrides env md existingTags) fun overrides => ?_
    dsimp only
    split_ifs
    · exact tells_unseen fun _ _ _ => rfl
    · exact tells_then (unseen_steady (steady_updateEmbedding env path i existingTags md)
        (speaks_updateEmbedding env i existingTags md)) fun _ => tells_applyDiff P env hC existingTags _
  intro h v _
  refine through_andThen (through_unseen recorded_getFileIDByPath (still_onIndex _)
    (fun w r w' he _ => by rw [he.1]) fun c r _ hv he => ?_)
  cases r with
  | error e => exact Heard.refl v
  | ok i => exact hok i _ v (by rw [← hv]; exact he.2 i rfl)

end Processor

/-! ### Operations without events -/

section Silent
variable (P : Platform F) (env : Env F) {C : List (Moment F) → Moment F → Prop} {i : ℕ}

/-- The same tags, and no event. -/
theorem heard_same {v v' : View} (hevents : v'.events = v.events) (htags : ∀ n, v'.tags n ↔ v.tags n) :
    Heard v v' :=
  ⟨[], by rw [hevents, List.append_nil], funext fun n => propext (htags n)⟩

theorem tells_sweepFile (hC : ∀ h c, C h c → ∀ i tags, c.label = .setFileTags path i tags (.ok ()) →
    Unchanged path c tags) : Tells path C (fun _ => True) (sweepFile P env path) := by
  refine tells_then (unseen_readTags recorded_readTags fun _ => keeps_readTags) fun existingTags => ?_
  refine tells_then (unseen_steady (steady_call isQuiet_readAllMeta) (speaks_call fun _ => keeps_readAllMeta))
    fun existingMeta => ?_
  have hpersist : ∀ idErr additional, Unseen path (sweepPersist P path idErr additional) :=
    fun idErr additional => unseen_steady (steady_sweepPersist P path idErr additional)
      (speaks_sweepPersist P idErr additional)
  refine tells_lookup (fun i => tells_then (hpersist _ _) fun _ => ?_) fun e =>
    tells_then (hpersist _ _) fun _ => tells_unseen fun _ _ _ => rfl
  refine tells_then (unseen_readOverrides env _ _) fun overrides => ?_
  dsimp only
  split_ifs
  · exact tells_unseen fun _ _ _ => rfl
  refine tells_then (unseen_recorded recorded_writeTags still_writeTags fun w r w' he _ => ?_) fun _ => ?_
  · cases r with
    | error e => rw [show w' = w from he]
    | ok _ =>
      obtain ⟨f, -, rfl⟩ := he
      rfl
  refine tells_then (unseen_steady (steady_updateSource P path _) (speaks_updateSource P _)) fun _ => ?_
  refine fun h v hi => through_andThen (through_recorded recorded_setFileTags (still_onIndex _)
    fun c r hlabel hv he hsame hc => ?_)
  obtain ⟨db, hafter, he⟩ := he
  cases r with
  | error e =>
    have hsame : c.after = c.before.store := by rw [hafter, show db = c.before.store.db from he]
    rw [hsame, hv]
    exact Heard.refl v
  | ok _ =>
    have hid : db.fileId path = some i := (he.1.fileId path).trans (by rw [← hi, ← hv]; rfl)
    refine ((unseen_steady (steady_andThen (steady_recordSources env i _) fun _ => steady_pure true)
      (speaks_andThen (speaks_recordSources env i _) fun _ => speaks_pure true)) C _ _).mono ?_
    rintro r h' v' rfl
    rw [← hv]
    refine heard_same (by rw [view, view, hsame]) fun n => ?_
    show IndexTag c.after path n ↔ IndexTag c.before.store path n
    rw [hC h c hc i _ hlabel n, hafter]
    exact (indexTag_iff hid).trans (he.2 n)

theorem tells_syncFile (hC : ∀ h c, C h c → ∀ stat tags now i,
    c.label = .syncFileApply path stat tags now (.ok i) → Unchanged path c tags) (stat : FileStat) :
    Tells path C (fun _ => True) (syncFile P env path stat) := by
  refine tells_then (unseen_readTags (recorded_readTags_errorf path) (still_errorf fun _ => keeps_readTags))
    fun tags => ?_
  refine tells_then (unseen_steady (steady_call (isQuiet_errorf isQuiet_readAllMeta))
    (speaks_call (still_errorf fun _ => keeps_readAllMeta))) fun md => ?_
  refine tells_then (unseen_steady (steady_call (isQuiet_errorf (isQuiet_readSource P)))
    (speaks_call (still_errorf fun _ => keeps_readSource P))) fun src => ?_
  refine tells_then (unseen_steady (steady_needsHarvest path md stat) (speaks_needsHarvest md stat))
    fun harvest => ?_
  refine fun h v _ => through_andThen (through_recorded (recorded_syncFileApply.errorf fun _ _ _ _ h => h)
    (still_errorf (still_onIndex _)) fun c r hlabel hv he hsame hc => ?_)
  obtain ⟨db, hafter, he⟩ := he
  cases r with
  | error e =>
    have hsame : c.after = c.before.store := by rw [hafter, show db = c.before.store.db from he]
    rw [hsame, hv]
    exact Heard.refl v
  | ok i =>
    obtain ⟨md, sourceMap, ha⟩ := he
    show Heard v (view path c.after)
    rw [← hv]
    refine heard_same (by rw [view, view, hsame]) fun n => ?_
    show IndexTag c.after path n ↔ IndexTag c.before.store path n
    rw [hC h c hc stat tags env.now i hlabel n, hafter]
    exact (indexTag_iff ha.fileId).trans (ha.tagged n)

end Silent

/-! ### The operations on other files -/

section Others
variable {S : Script} {ph : Phase F} {l : Call F}

/-- The call is about one file, which is another one. -/
theorem scripted_other (hscript : S.Scripted ph l) (hon : ¬ S.on path) :
    ∃ q, q ≠ path ∧ Script.Scripted ⟨(· = q), S.request⟩ ph l := by
  have hne : ∀ {q}, S.on q → q ≠ path := fun hq hqp => hon (hqp ▸ hq)
  have hsome : ∃ q : String, q ≠ path := by
    by_cases h : path = ""
    · exact ⟨"a", by rw [h]; decide⟩
    · exact ⟨"", Ne.symm h⟩
  cases l with
  | readTags p r | getFileIDByPath p r | getFileTags p r | deleteFile p r => exact ⟨p, hne hscript, rfl⟩
  | evaluate q r => exact ⟨q.path, hne hscript.1, rfl, hscript.2⟩
  | writeTags p tags diff r => cases diff <;> exact ⟨p, hne hscript.1, rfl, hscript.2⟩
  | setFileTags p i tags r => exact ⟨p, hne hscript.1, rfl, hscript.2⟩
  | modifyFileTags p tags op r => exact ⟨p, hne hscript.1, rfl, hscript.2⟩
  | syncFileApply p stat tags now r => exact ⟨p, hne hscript.1, rfl, hscript.2⟩
  | setGraphTags p tags => exact ⟨p, hne hscript.1, rfl, hscript.2⟩
  | setxattrTags p data r => exact ⟨p, hne hscript.1, rfl, hscript.2⟩
  | deleteStaleFiles base since r => exact ⟨_, hsome.choose_spec, hscript⟩
  | changeFiles before after => exact ⟨_, hsome.choose_spec, hscript⟩
  | other => exact ⟨_, hsome.choose_spec, trivial⟩

/-- A call of an operation on other files leaves the view alone; the id it has looked up stays right. -/
theorem view_other (he : Effect w l w') (hscript : S.Scripted ph l) (hon : ¬ S.on path)
    (hpurge : S.request ≠ .purge) (hid : ∀ q i, ph.fileId = some (q, i) → w.db.fileId q = some i)
    (hevs : ∃ evs, w'.fileTagged = w.fileTagged ++ evs ∧ ∀ ev ∈ evs, S.on ev.path) :
    view path w' = view path w := by
  obtain ⟨q, hq, hone⟩ := scripted_other hscript hon
  obtain ⟨evs, hevs, hheard⟩ := hevs
  have hother := (effect_elsewhere he hone (fun _ h => h) hpurge hid).1
  have hevents : (w'.fileTagged.filter fun ev => ev.path = path) = w.fileTagged.filter fun ev => ev.path = path := by
    rw [hevs, List.filter_append, List.append_right_eq_self, List.filter_eq_nil_iff]
    exact fun ev hev hp => hon (of_decide_eq_true hp ▸ hheard ev hev)
  have htags : IndexTag w' path = IndexTag w path := funext fun n => propext (hother.index path hq.symm n)
  rw [view, view, hother.fileId path hq.symm, htags, hevents]

/-- A call that removes no file leaves every file its id. -/
theorem effect_fileId {q : String} {i : ℕ} (he : Effect w l w') (hl : ¬ Removes l) (hi : w.db.fileId q = some i) :
    w'.db.fileId q = some i := by
  cases l with
  | readTags p r => exact (he.1.db.fileId q).trans hi
  | other => exact (Quiet.db he).fileId q |>.trans hi
  | writeTags p tags diff r | setxattrTags p data r =>
    cases r with
    | error e => exact he ▸ hi
    | ok _ =>
      obtain ⟨f, -, rfl⟩ := he
      exact hi
  | getFileIDByPath p r | getFileTags p r | evaluate p r => exact he.1 ▸ hi
  | changeFiles before after => exact he.2 ▸ hi
  | setGraphTags p tags =>
    have he : w' = { w with graph := Graph.Edges.setFileTags w.graph p tags } := he
    exact he ▸ hi
  | setFileTags p j tags r =>
    obtain ⟨db, rfl, h⟩ := he
    cases r with
    | error e => exact (show db = w.db from h) ▸ hi
    | ok _ => exact (h.1.fileId q).trans hi
  | modifyFileTags p tags op r =>
    obtain ⟨db, rfl, h⟩ := he
    cases r with
    | error e =>
      rcases h with rfl | ⟨-, j, -, hpart⟩
      · exact hi
      · exact (hpart.1.fileId q).trans hi
    | ok _ =>
      obtain ⟨j, -, hframe, -⟩ := h
      exact (hframe.fileId q).trans hi
  | syncFileApply p stat tags now r =>
    obtain ⟨db, rfl, h⟩ := he
    cases r with
    | error e => exact (show db = w.db from h) ▸ hi
    | ok j =>
      obtain ⟨md, sourceMap, h⟩ := h
      by_cases hq : q = p
      · subst hq
        have hj : j = i := by rw [h.id, Index.Statements.upsertId, hi, Option.getD_some]
        exact hj ▸ h.fileId
      · exact (h.fileId_other hq).trans hi
  | deleteFile p r | deleteStaleFiles base since r => exact absurd trivial hl

/-- The id the operation goes on with stays right. -/
theorem effect_advance {q : String} {i : ℕ} (he : Effect w l w') (hl : ¬ Removes l)
    (hid : ∀ q i, ph.fileId = some (q, i) → w.db.fileId q = some i) (h : (advance ph l).fileId = some (q, i)) :
    w'.db.fileId q = some i := by
  cases l with
  | getFileIDByPath p r =>
    cases r with
    | error e => exact effect_fileId he hl (hid q i h)
    | ok j =>
      obtain ⟨rfl, rfl⟩ := Prod.mk.inj (Option.some.inj h)
      exact he.1 ▸ he.2 j rfl
  | evaluate p r | getFileTags p r => cases r <;> exact effect_fileId he hl (hid q i h)
  | syncFileApply | deleteFile | deleteStaleFiles => cases h
  | _ => exact effect_fileId he hl (hid q i h)

theorem tagging_request {o : Operation F} (ho : Tagging o) : o.script.request ≠ .purge := by
  cases o with
  | handleFSEvent | deleteStaleFiles | setxattr | removeByBrowser => exact ho.elim
  | _ => exact Request.noConfusion

end Others

/-! ### Requests for tags -/

section Requests
variable {C : List (Moment F) → Moment F → Prop} {op : String} {tags : List String}

theorem view_modified (he : Effect (F := F) w (.modifyFileTags path tags op (.ok ())) w')
    (hs : w'.fileTagged = w.fileTagged) :
    view path w' = { view path w with tags := afterModify op tags (view path w).tags } := by
  have hshows := (Shows.refl w path).modifyFileTags he
  have htags : IndexTag w' path = afterModify op tags (IndexTag w path) :=
    funext fun n => propext (hshows.index n)
  rw [view, view, hshows.fileId, htags, hs]

/-- A change by one tag that fails changes nothing. -/
theorem view_failed {t : String} {e : OpError} (he : Effect (F := F) w (.modifyFileTags path [t] op (.error e)) w')
    (hs : w'.fileTagged = w.fileTagged) : view path w' = view path w := by
  have hshows := (Shows.refl w path).modifyFileTags_failed he
  have htags : IndexTag w' path = IndexTag w path := funext fun n => propext (hshows.index n)
  rw [view, view, hshows.fileId, htags, hs]

/-- A request that fails changes nothing if only its last tag is new. -/
theorem indexTag_failed {e : OpError} (he : Effect (F := F) w (.modifyFileTags path tags op (.error e)) w')
    (hlast : op ≠ "set" → ∀ t ∈ tags.dropLast, (IndexTag w path t ↔ op = "add")) (n : String) :
    IndexTag w' path n ↔ IndexTag w path n := by
  obtain ⟨db, rfl, rfl | ⟨hop, i, hi, hframe, done, rest, hrest, rfl, ht⟩⟩ := he
  · rfl
  rw [List.dropLast_append_of_ne_nil hrest] at hlast
  have hid : db.fileId path = some i := (hframe.fileId path).trans hi
  rw [indexTag_iff (w := { w with db := db }) hid, ht, indexTag_iff hi]
  rcases hop with rfl | rfl
  · refine or_iff_left_of_imp fun hn => (indexTag_iff hi).mp ?_
    exact (hlast (by decide) n (List.mem_append_left _ hn)).mpr rfl
  · refine and_iff_left_of_imp fun hold hn => ?_
    have hadd := (hlast (by decide) n (List.mem_append_left _ hn)).mp ((indexTag_iff hi).mpr hold)
    exact absurd hadd (by decide)

/-- What a rename does to the tags: while tags are taken away, those that are gone are among those to come. -/
structure Moving (T : String → Prop) (dst : List String) (h : List (Moment F)) (path : String) (v : View) : Prop where
  first : ∀ c : Moment F, view path c.before.store = v → IndexTag (h.headD c).before.store path = T
  sub : ∀ n, v.tags n → T n
  gone : ∀ n, T n → ¬ v.tags n → n ∈ dst

theorem Moving.later {T : String → Prop} {dst dst' : List String} {h : List (Moment F)} {v v' : View} {c : Moment F}
    (hm : Moving T dst h path v) (hc : view path c.before.store = v) (hsub : ∀ n, v'.tags n → T n)
    (hgone : ∀ n, T n → ¬ v'.tags n → n ∈ dst') : Moving T dst' (h ++ [c]) path v' := by
  refine ⟨fun d _ => ?_, hsub, hgone⟩
  have hfirst := hm.first c hc
  cases h with
  | nil => exact hfirst
  | cons e h => exact hfirst

/-- One step of a rename, which is dropped if it fails. -/
theorem through_retagOne {t : String} {h : List (Moment F)} {v : View}
    {Q : Except OpError Unit → List (Moment F) → View → Prop}
    (hok : ∀ (c : Moment F), c.label = .modifyFileTags path [t] op (.ok ()) → view path c.before.store = v → C h c →
      Q (.ok ()) (h ++ [c]) { v with tags := afterModify op [t] v.tags })
    (herr : ∀ (c : Moment F) e, c.label = .modifyFileTags path [t] op (.error e) → view path c.before.store = v →
      C h c → Q (.ok ()) (h ++ [c]) v) :
    Through (view path) C (orElse () (atom (.modifyFileTags path [t] op) (onIndex (modifyFileTags path [t] op))))
      Q h v := by
  refine through_orElse (through_recorded recorded_modifyFileTags (still_onIndex _)
    fun c r hlabel hv he hsame hc => ?_)
  cases r with
  | ok _ =>
    rw [view_modified he hsame, hv]
    exact hok c hlabel hv hc
  | error e =>
    rw [view_failed he hsame, hv]
    exact herr c e hlabel hv hc

/-- A rename takes away no more than it gives back. -/
theorem tells_retag {srcTags dstTags : List String} (hC : ∀ h c, C h c → MoveAnnounced path dstTags h c) (v : View) :
    Through (view path) C (retag (F := F) path srcTags dstTags) (fun _ _ v' => Heard v v') [] v := by
  have hstart : Moving v.tags dstTags ([] : List (Moment F)) path v :=
    ⟨fun c hc => by rw [← hc]; rfl, fun _ h => h, fun n h hn => absurd h hn⟩
  refine through_andThen (through_each (fun _ h v' => Moving v.tags dstTags h path v' ∧ v'.events = v.events)
    (fun t _ h v' hm => ?_) ⟨hstart, rfl⟩ fun h v' hm => ?_)
  · refine through_retagOne
      (fun c hlabel hv hc => ⟨hm.1.later hv (fun n hn => hm.1.sub n hn.1) fun n hT hn => ?_, hm.2⟩)
      fun c e hlabel hv hc => ⟨hm.1.later hv hm.1.sub hm.1.gone, hm.2⟩
    by_cases hnow : v'.tags n
    · have hnt : n = t := by
        by_contra hnt
        exact hn ⟨hnow, by simpa using hnt⟩
      subst hnt
      have hmove := hC h c hc n "remove" (.ok ()) hlabel
      rw [← hv] at hnow
      exact hmove rfl hnow
    · exact hm.1.gone n hT hnow
  · refine through_each (fun rest h v' => Moving v.tags rest h path v' ∧ v'.events = v.events)
      (fun t rest h v' hm => ?_) hm fun h v' hm => ?_
    · have hadd : ∀ c r, c.label = .modifyFileTags path [t] "add" r → C h c → if r.isOk then
          IndexTag (h.headD c).before.store path t else IndexTag (h.headD c).before.store path t →
            IndexTag c.before.store path t := fun c r hlabel hc => hC h c hc t "add" r hlabel
      refine through_retagOne (fun c hlabel hv hc => ⟨hm.1.later hv (fun n hn => ?_) fun n hT hn => ?_, hm.2⟩)
        fun c e hlabel hv hc => ⟨hm.1.later hv hm.1.sub fun n hT hn => ?_, hm.2⟩
      · rcases hn with hn | hn
        · exact hm.1.sub n hn
        · rw [List.mem_singleton.mp hn, ← hm.1.first c hv]
          exact hadd c _ hlabel hc
      · have hnow : ¬ v'.tags n := fun hnow => hn (.inl hnow)
        have hnt : n ≠ t := fun hnt => hn (.inr (List.mem_singleton.mpr hnt))
        exact (List.mem_cons.mp (hm.1.gone n hT hnow)).resolve_left hnt
      · rcases List.mem_cons.mp (hm.1.gone n hT hn) with rfl | hrest
        · rw [← hm.1.first c hv] at hT
          have hback := hadd c _ hlabel hc hT
          rw [← hv] at hn
          exact absurd hback hn
        · exact hrest
    · refine heard_same hm.2 fun n => ⟨hm.1.sub n, fun hn => ?_⟩
      by_contra hno
      exact absurd (hm.1.gone n hn hno) List.not_mem_nil

/-- What the event of a request says: it tells what the request does, if the tags were known or the error in them
does not matter. -/
theorem request_told {T : String → Prop} {oldTags : List String} (env : Env F)
    (hop : op = "add" ∨ op = "remove" ∨ op = "set")
    (hold : (∀ n, n ∈ oldTags ↔ T n) ∨ oldTags = [] ∧ (op = "add" ∨ (op = "remove" ∧ ∀ t ∈ tags, ¬ T t) ∨
      (op = "set" ∧ ∀ n, T n → n ∈ tags))) (n : String) :
    afterModify op tags T n ↔ (T n ∨ n ∈ (env.order.visit (applyOp op oldTags tags)).filter (· ∉ oldTags)) ∧
      n ∉ (env.order.visit oldTags).filter (· ∉ applyOp op oldTags tags) := by
  simp only [List.mem_filter, MapOrder.mem_visit, decide_eq_true_eq, mem_applyOp hop]
  rcases hold with hold | ⟨rfl, hold⟩
  · have hT : (fun m => m ∈ oldTags) = T := funext fun m => propext (hold m)
    rw [hT, hold n]
    rcases hop with rfl | rfl | rfl
    · simp only [afterModify_add]
      tauto
    · simp only [afterModify_remove]
      tauto
    · simp only [afterModify_set]
      tauto
  · rcases hold with rfl | ⟨rfl, hold⟩ | ⟨rfl, hold⟩
    · simp [afterModify_add]
    · have hn := hold n
      simp only [afterModify_remove, List.not_mem_nil, not_false_eq_true, false_and, and_true, or_false]
      tauto
    · have hn := hold n
      simp only [afterModify_set, List.not_mem_nil, not_false_eq_true, false_and, and_true]
      tauto

theorem view_queried {r : Except OpError (List String)} {q : String} (he : Effect (F := F) w (.getFileTags q r) w') :
    view path w' = view path w := by rw [he.1]

theorem view_written {q : String} {diff : Option TagDiff} {r : Except OpError Unit}
    (he : Effect (F := F) w (.writeTags q tags diff r) w') : view path w' = view path w := by
  cases r with
  | error e => rw [show w' = w from he]
  | ok _ =>
    obtain ⟨f, -, rfl⟩ := he
    rfl

theorem lastQueryOk_asked {h : List (Moment F)} {c : Moment F} {q : String} {r : Except OpError (List String)}
    (hc : c.label = .getFileTags q r) : lastQueryOk (h ++ [c]) = r.isOk := by
  simp [lastQueryOk, hc]

theorem lastQueryOk_later {h t : List (Moment F)} (ht : ∀ c ∈ t, ∀ q r, c.label ≠ .getFileTags q r) :
    lastQueryOk (h ++ t) = lastQueryOk h := by
  have hnone : (t.filterMap fun c => match c.label with
      | .getFileTags _ r => some r.isOk
      | _ => none) = [] := by
    refine List.filterMap_eq_nil_iff.mpr fun c hc => ?_
    split
    · rename_i q r hlabel
      exact absurd hlabel (ht c hc q r)
    · rfl
  rw [lastQueryOk, List.filterMap_append, hnone, List.append_nil, lastQueryOk]

/-- The attribute is read and written, which is not seen, and is no query. -/
theorem through_applyTagsXattr (env : Env F) (q : String) {h : List (Moment F)} {v : View} :
    Through (view path) C (orElse () (applyTagsXattr env q tags op)) (fun r h' v' => v' = v ∧ r = .ok () ∧
      ∃ t, h' = h ++ t ∧ ∀ c ∈ t, ∀ p r, c.label ≠ .getFileTags p r) h v := by
  refine through_orElse (through_andThen (through_orElse (through_unseen recorded_readTags
    (fun _ => keeps_readTags) (fun _ _ _ he => view_quiet he.1) fun c₁ r hlabel₁ _ _ => ?_)))
  refine through_unseen recorded_writeTags still_writeTags (fun _ _ _ he _ => view_written he)
    fun c₂ r' hlabel₂ _ _ => ⟨rfl, by cases r' <;> rfl, [c₁, c₂], List.append_assoc _ _ _, ?_⟩
  simp [hlabel₁, hlabel₂]

/-- The event, if there is something to tell. -/
theorem through_announce {added removed : List String} {h : List (Moment F)} {v : View} {T : String → Prop}
    (htold : ∀ n, T n ↔ (v.tags n ∨ n ∈ added) ∧ n ∉ removed) :
    Through (view path) C (if added ≠ [] ∨ removed ≠ [] then call (onFileTagged path added removed) else pure ())
      (fun _ _ v' => Heard v v') h { v with tags := T } := by
  split_ifs with hsome
  · exact through_onFileTagged fun h' => heard_event ⟨path, added, removed⟩ rfl htold
  · rw [not_or, not_not, not_not] at hsome
    refine heard_same rfl fun n => (htold n).trans ?_
    rw [hsome.1, hsome.2]
    simp

/-- The request for one path tells what it does. -/
theorem tells_handleTagPath (env : Env F) (hop : op = "add" ∨ op = "remove" ∨ op = "set")
    (hC : ∀ h c, C h c → RequestAnnounced path h c) :
    Tells path C (fun _ => True) (handleTagPath env op tags path) := by
  intro h v _
  refine through_andThen (through_orElse (through_unseen recorded_getFileTags (still_onIndex _)
    (fun _ _ _ he _ => view_queried he) fun c₁ r hlabel₁ hv₁ he₁ => ?_))
  refine through_andThen ((through_applyTagsXattr env path).mono ?_)
  rintro r' h₂ v ⟨rfl, rfl, t, rfl, ht⟩
  refine through_andThen (through_recorded recorded_modifyFileTags (still_onIndex _)
    fun c₃ r₃ hlabel₃ hv₃ he₃ hsame hc₃ => ?_)
  have hC₃ := hC _ c₃ hc₃ tags op r₃ hlabel₃
  rw [lastQueryOk_later ht, lastQueryOk_asked hlabel₁] at hC₃
  cases r₃ with
  | error e =>
    show Heard v (view path c₃.after)
    rw [← hv₃]
    exact heard_same (by rw [view, view, hsame]) (indexTag_failed he₃ hC₃)
  | ok u =>
    rw [view_modified he₃ hsame, hv₃]
    rw [if_pos (show (Except.ok u : Except OpError Unit).isOk = true from rfl)] at hC₃
    have hold : (∀ n, n ∈ r.toOption.getD [] ↔ v.tags n) ∨ r.toOption.getD [] = [] ∧ (op = "add" ∨
        (op = "remove" ∧ ∀ t ∈ tags, ¬ v.tags t) ∨ (op = "set" ∧ ∀ n, v.tags n → n ∈ tags)) := by
      cases r with
      | ok old => exact .inl fun n => (he₁.2 old rfl n).trans (by rw [← hv₁]; rfl)
      | error e =>
        refine .inr ⟨rfl, ?_⟩
        rw [← hv₃]
        exact hC₃.resolve_left Bool.false_ne_true
    have htold := request_told env hop hold
    refine through_andThen (through_andThen (through_attempt (through_unseen recorded_getFileTags (still_onIndex _)
      (fun _ _ _ he _ => view_queried he) fun c₄ r₄ _ _ _ => ?_)))
    cases r₄ with
    | error e => exact through_announce htold
    | ok updated => exact through_setGraphTags fun h₅ => through_announce htold

/-- The request for another path is not seen. -/
theorem unseen_handleTagPath (env : Env F) {q : String} (hq : path ≠ q) :
    Unseen path (handleTagPath env op tags q) := by
  intro C h v
  have hfollows : Follows (Script.protocol ⟨(· = q), .tag op tags⟩) (handleTagPath env op tags q)
      (fun _ _ => True) ({} : Phase F) := (follows_handleTagPath env q rfl rfl).mono fun _ _ _ => trivial
  have hspeaks : Speaks (· = q) (handleTagPath env op tags q) := @speaks_handleTagPath F q (· = q) env rfl op tags
  refine ((hfollows.both hspeaks).through (K := fun _ => True) ?_).mono fun _ _ _ h => h.1
  rintro ⟨ph, _⟩ w l w' ⟨⟨heffect, hscript⟩, ⟨evs, hevs, hheard⟩, -⟩
  refine ⟨?_, trivial⟩
  have hscript' : Script.Scripted ⟨(· = q), .tag op tags⟩ { ph with fileId := none } l := by
    cases l with
    | evaluate => exact absurd hscript.2.2.2 (by simp)
    | setFileTags => exact absurd hscript.2.1 (by simp)
    | writeTags p tags diff r => cases diff <;> exact hscript
    | _ => exact hscript
  exact view_other heffect hscript' hq (by simp) (fun _ _ h => by cases h) ⟨evs, hevs, hheard⟩

/-- The loop over the paths. -/
theorem tells_handleTagPaths (env : Env F) (hop : op = "add" ∨ op = "remove" ∨ op = "set")
    (hC : ∀ h c, C h c → RequestAnnounced path h c) (paths : List String) (r : TagResponse) :
    Tells path C (fun _ => True) (handleTagPaths env op tags paths r) := by
  induction paths generalizing r with
  | nil => exact tells_unseen fun _ _ _ => rfl
  | cons q paths ih =>
    refine tells_andThen (tells_attempt ?_) fun result => ih _
    by_cases hq : path = q
    · subst hq
      exact tells_handleTagPath env hop hC
    · exact tells_unseen (unseen_handleTagPath env hq)

end Requests

/-! ### Every operation that changes tags -/

section Operations
variable (P : Platform F) (env : Env F)

/-- A rename of the file. -/
theorem tells_rename {d : TagDir} {name : String} {newParent : Option TagDir} (hon : d.cache.bind (· name) = some path)
    (v : View) : Through (view path) (fun h c => Announces path h c (.rename d name newParent))
      (rename (F := F) d name newParent) (fun _ _ v' => Heard v v') [] v := by
  unfold rename
  split
  · exact Heard.refl v
  · exact Heard.refl v
  rename_i dest byName hcache
  split
  · exact Heard.refl v
  rename_i realPath hname
  have hreal : realPath = path := by
    rw [hcache] at hon
    exact Option.some.inj (hname.symm.trans hon)
  subst hreal
  split_ifs
  · exact Heard.refl v
  split
  · rename_i srcTags dstTags _ hdst
    refine through_andThen ((tells_retag (fun h c hc => ?_) v).mono fun r h' v' hv => ?_)
    · have hc : MoveAnnounced realPath ((simpleTagsFromExpr dest.expr).getD []) h c := hc
      rwa [hdst] at hc
    · cases r with
      | ok _ => exact hv
      | error _ => exact hv
  · exact Heard.refl v

/-- **Every operation on the path** that announces its changes ends with the tags told by the events. -/
theorem tells_run {o : Operation F} (ho : Tagging o) (hon : o.script.on path) (v : View) :
    Through (view path) (fun h c => Announces path h c o) (o.run P env) (fun _ _ v' => Heard v v') [] v := by
  have hforget : ∀ {β : Type} {p : Op F β},
      Through (view path) (fun h c => Announces path h c o) p (fun _ _ v' => Heard v v') [] v →
        Through (view path) (fun h c => Announces path h c o) (p >>= fun _ => pure ())
          (fun _ _ v' => Heard v v') [] v :=
    fun hp => through_andThen (hp.mono fun r _ _ hv => by cases r <;> exact hv)
  cases o with
  | handleTag operation paths tags =>
    refine hforget ?_
    unfold handleTag
    split_ifs with hop
    · exact Heard.refl v
    have hop : opStr operation = "add" ∨ opStr operation = "remove" ∨ opStr operation = "set" := by
      cases operation <;> simp [opStr] at hop ⊢
    refine through_andThen
      ((tells_handleTagPaths env hop (fun _ _ hc => hc) paths {} [] v trivial).mono fun r _ _ hv => ?_)
    cases r <;> exact hv
  | processFile q =>
    obtain rfl : path = q := hon
    exact tells_guarded env (tells_processFile P env fun _ _ hc => hc) [] v trivial
  | handleAsyncResult q harvesterName asyncMeta =>
    obtain rfl : path = q := hon
    exact tells_guarded env (tells_asyncUpdate P env (fun _ _ hc => hc) harvesterName asyncMeta) [] v trivial
  | sweepFile q =>
    obtain rfl : path = q := hon
    exact hforget (tells_sweepFile P env (fun _ _ hc => hc) [] v trivial)
  | syncFile q stat =>
    obtain rfl : path = q := hon
    exact hforget (tells_syncFile P env (fun _ _ hc => hc) stat [] v trivial)
  | rename d name newParent => exact hforget (tells_rename hon v)
  | external change => exact hon.elim
  | handleFSEvent | deleteStaleFiles | setxattr | removeByBrowser => exact ho.elim

end Operations

/-! ### Runs -/

section Runs
variable {ι : Type} [DecidableEq ι] (P : Platform F) {ops : ι → Operation F} {envs : ι → Env F}

/-- A call with the way the operation ended, if it ended with it. -/
abbrev Shown (F : Type) : Type := Moment F × Option (Except OpError Unit)

/-- The operations as they are observed. -/
def listened (w : World) (ops : ι → Operation F) (envs : ι → Env F) : Pool ι World (Shown F) OpError Unit where
  store := w
  proc i := ((ops i).run P (envs i)).observe.ending

variable {tr : List (ι × Shown F)} {T : Pool ι World (Shown F) OpError Unit}

/-- The calls of the operations on other files leave the view alone. -/
theorem kept_of_listened (hrun : Run (listened P w ops envs) tr T) (hops : ∀ i, Tagging (ops i)) :
    ∀ e ∈ tr, ¬ (ops e.1).script.on path → view path e.2.1.after = view path e.2.1.before.store := by
  let protocol : ι → Protocol (Phase F × Unit) World (Shown F) := fun i =>
    ((ops i).script.protocol.both (speech F (ops i).script.on)).observed.ending fun _ _ => True
  have hfollows : ∀ i, Follows (protocol i) ((listened P w ops envs).proc i) (fun _ _ => True) ({}, ()) := by
    intro i
    have hscript := keepsTo_run P (envs i) (ops i) {} fun _ _ h => by cases h
    exact (hscript.both (speaks_run P (envs i) (hops i))).observed.mono (fun _ _ _ => trivial) |>.ending
  refine (hrun.invariant (P := protocol) (fun tr w => (∀ i q j,
    ((protocol i).phase ({}, ()) i tr).1.fileId = some (q, j) → w.db.fileId q = some j) ∧
      ∀ e ∈ tr, ¬ (ops e.1).script.on path → view path e.2.1.after = view path e.2.1.before.store)
    hfollows ⟨fun i q j h => ?_, fun e he => absurd he List.not_mem_nil⟩ ?_).1.2
  · cases h
  rintro tr i ⟨c, r⟩ s s' ⟨⟨rfl, rfl, ⟨heffect, hscript⟩, hevs, hremoves⟩, -⟩ ⟨hids, hkept⟩
  refine ⟨fun j q k hk => ?_, fun e he hon => ?_⟩
  · by_cases hij : i = j
    · subst hij
      rw [Protocol.phase_self] at hk
      exact effect_advance heffect hremoves (hids i) hk
    · rw [Protocol.phase_other hij] at hk
      exact effect_fileId heffect hremoves (hids j q k hk)
  · rcases List.mem_append.mp he with he | he
    · exact hkept e he hon
    · obtain rfl := List.mem_singleton.mp he
      exact view_other heffect hscript hon (tagging_request (hops i)) (hids i) hevs

/-- **A client that follows the events shows the tags.** In every run in which the operations on the path take
turns and announce their changes, whenever none of them is under way, the tags of the path are those at the
start with the events since then applied in order. -/
theorem heard_throughout {w : World} (hrun : Run (listened P w ops envs) tr T) (hops : ∀ i, Tagging (ops i))
    (hturns : TakeTurns (fun i => (ops i).script.on path) tr)
    (hannounces : ∀ before e rest, tr = before ++ e :: rest → (ops e.1).script.on path →
      Announces path (history e.1 (moments before)) e.2.1 (ops e.1))
    (hended : ∀ i, (ops i).script.on path → Ended i tr) : Heard (view path w) (view path T.store) := by
  have hthrough : ∀ i, (ops i).script.on path → ∀ v, Heard (view path w) v →
      Through (view path) (fun h c => Announces path h c (ops i)) ((ops i).run P (envs i))
        (fun _ _ v' => Heard (view path w) v') [] v :=
    fun i hon v hv => (tells_run P (envs i) (hops i) hon v).mono fun _ _ _ hv' => hv.trans hv'
  exact hrun.turns (J := Heard (view path w)) (C := fun i h c => Announces path h c (ops i)) hthrough
    (Heard.refl _) (kept_of_listened P hrun hops) hannounces hturns hended

end Runs

/-! ### A change nobody hears of -/

/-- A file with a tag is new to the index. -/
def newFile : World := worldOf DB.empty [("/a", { stat := ⟨0, 0, 0, 0⟩, tags := some "x" })]

def newOps : Unit → Operation Unit := fun _ => .syncFile "/a" ⟨0, 0, 0, 0⟩

def newRun : List (Unit × Shown Unit) × Pool Unit World (Shown Unit) OpError Unit :=
  (listened plainPlatform newFile newOps fun _ => plainEnv []).exec (calls () 6)

/-- `SyncFile` gives the file its tag in the index and sends no event. -/
theorem sync_unheard : Run (listened plainPlatform newFile newOps fun _ => plainEnv []) newRun.1 newRun.2 ∧
    (∀ i, Tagging (newOps i)) ∧ TakeTurns (fun i => (newOps i).script.on "/a") newRun.1 ∧
    (∀ i, Ended i newRun.1) ∧ ¬ Heard (view "/a" newFile) (view "/a" newRun.2.store) := by
  refine ⟨Pool.run_exec _ _, fun _ => trivial, fun _ e _ _ _ j hj _ => absurd rfl hj, fun i e he => ?_, ?_⟩
  · have hlast : ((history () newRun.1).getLast?.all fun e => e.2.isSome) = true := by decide +kernel
    rw [he] at hlast
    exact hlast
  · rintro ⟨evs, hevs, htags⟩
    have hnone : (view "/a" newRun.2.store).events = [] := by decide +kernel
    have hpairs : fileTagPairs newRun.2.store.db.toTables = [("/a", "x")] := by decide +kernel
    rw [hnone] at hevs
    obtain rfl : evs = [] := (List.append_eq_nil_iff.mp hevs.symm).2
    have htag : IndexTag newRun.2.store "/a" "x" := mem_fileTagPairs.mp (hpairs ▸ List.mem_singleton_self _)
    have hbefore : IndexTag newRun.2.store "/a" "x" = IndexTag newFile "/a" "x" := congrFun htags "x"
    rw [hbefore] at htag
    exact absurd (mem_fileTagPairs.mpr htag) List.not_mem_nil

theorem indexedFile_valid : Tables.Valid { files := [⟨1, "/a", 0, 0, 0, 0, 0⟩] } := by decide

/-- An indexed file without tags. -/
def indexedFile : World :=
  worldOf ⟨{ files := [⟨1, "/a", 0, 0, 0, 0, 0⟩] }, indexedFile_valid⟩ [("/a", { stat := ⟨0, 0, 0, 0⟩ })]

def addOps : Unit → Operation Unit := fun _ => .handleTag .add ["/a"] ["t"]

def addRun : List (Unit × Shown Unit) × Pool Unit World (Shown Unit) OpError Unit :=
  (listened plainPlatform indexedFile addOps fun _ => plainEnv []).exec (calls () 7)

/-- A change of the index adds tags, and goes through. -/
def adds : Call Unit → Bool
  | .modifyFileTags _ _ op r => op == "add" && r.isOk
  | _ => true

/-- A request that adds a tag is heard of. -/
theorem heard_throughout_addRun : Heard (view "/a" indexedFile) (view "/a" addRun.2.store) ∧
    (view "/a" addRun.2.store).events = [⟨"/a", ["t"], []⟩] := by
  have hrun : Run (listened plainPlatform indexedFile addOps fun _ => plainEnv []) addRun.1 addRun.2 :=
    Pool.run_exec _ _
  refine ⟨heard_throughout plainPlatform hrun (fun _ => trivial) (fun _ e _ _ _ j hj _ => absurd rfl hj)
    (fun before e rest htr _ tags op r hlabel => ?_) (fun i _ e he => ?_), by decide +kernel⟩
  · have hadds : (addRun.1.all fun e => adds e.2.1.label) = true := by decide +kernel
    have he := List.all_eq_true.mp hadds e (by rw [htr]; simp)
    rw [hlabel] at he
    obtain ⟨hop, hr⟩ := (Bool.and_eq_true _ _).mp he
    rw [if_pos hr]
    exact .inr (.inl (eq_of_beq hop))
  · have hlast : ((history () addRun.1).getLast?.all fun e => e.2.isSome) = true := by decide +kernel
    rw [he] at hlast
    exact hlast

end Tilbo.Daemon.Notices
