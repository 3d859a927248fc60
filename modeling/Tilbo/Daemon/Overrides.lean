import Tilbo.Daemon.Operations
import Mathlib

/-! # Removed tags and the rules

A user takes a tag off a file that a rule had put there. Nothing remembers it: no call records an override
(`Effect.overridden`), so the next evaluation on the same metadata gives the tag again. -/

namespace Tilbo.Daemon.Overrides

open Tilbo.Daemon.State Tilbo.Daemon.Calls Tilbo.Daemon.Handlers Tilbo.Daemon.Scripts
open Tilbo.Daemon.Operations Tilbo.Rules.Engine Tilbo.Harvester.Meta Tilbo.Index.Schema
open Tilbo.Index.Store Tilbo.Index.StoreSpec Tilbo.Xattr.Csv Tilbo.Lib.Pairs Tilbo.Lib.Process

variable {F ι : Type} [DecidableEq ι]

/-! ### What happens in a run -/

/-- The tag goes into the tag attribute as the rule's. -/
def RuleWrites (path tag rule : String) : Call F → Prop
  | .writeTags p _ (some diff) (.ok _) => p = path ∧ (tag, "rule:" ++ rule) ∈ diff.sources
  | _ => False

/-- A request takes the tag off; it reports success exactly if this call does. -/
def UserRemoves (path tag : String) : Call F → Prop
  | .modifyFileTags p tags op (.ok _) => p = path ∧ op = "remove" ∧ tag ∈ tags
  | _ => False

/-- A user puts the tag on the file. -/
def UserAdds (path tag : String) : Call F → Prop
  | .modifyFileTags p tags op _ => p = path ∧ op ≠ "remove" ∧ tag ∈ tags
  | .setxattrTags p data _ => p = path ∧ tag ∈ (parseTags data).toOption.getD []
  | _ => False

/-- `before`, the removal by operation `i`, and `after`: a rule had given the tag, a request for the
removal succeeds, and no user puts the tag back. -/
structure Taken (ops : ι → Operation F) (path tag rule : String) (before : List (ι × Call F))
    (removal : ι × Call F) (after : List (ι × Call F)) : Prop where
  applied : ∃ e ∈ before, RuleWrites path tag rule e.2
  request : ∃ paths tags, ops removal.1 = .handleTag .remove paths tags
  removed : UserRemoves path tag removal.2
  notAgain : ∀ e ∈ after, ¬ UserAdds path tag e.2

/-- User removal beats rules: no operation that starts after the removal gives the tag to the file because
of that rule. -/
def RemovalBeatsRules (ops : ι → Operation F) (tr : List (ι × Call F)) : Prop :=
  ∀ path tag rule before removal after j write rest,
    tr = before ++ removal :: after ++ (j, write) :: rest →
    Taken ops path tag rule before removal after → (∀ e ∈ before ++ [removal], e.1 ≠ j) →
    ¬ RuleWrites path tag rule write

/-- What operation `j` last evaluated the rules on, and the overrides it found. -/
def lastEvaluation (j : ι) (tr : List (ι × Call F)) : Option (Query F × List (String × String)) :=
  (((tr.filter fun e => e.1 = j).map Prod.snd).foldl advance {}).evaluation

/-- The rules, as they were last evaluated for each later write of the tag attribute, do not give the tag
because of that rule: it was in the list read, or another rule is the last to give it, or none. -/
def Shielded (ops : ι → Operation F) (tr : List (ι × Call F)) : Prop :=
  ∀ path tag rule before removal after j tags diff rest,
    tr = before ++ removal :: after ++ (j, .writeTags path tags (some diff) (.ok ())) :: rest →
    Taken ops path tag rule before removal after → (∀ e ∈ before ++ [removal], e.1 ≠ j) →
    ∀ q overrides, lastEvaluation j (before ++ removal :: after) = some (q, overrides) →
      tag ∈ q.existingTags ∨ attribution q.md overrides q.rules tag ≠ some rule

/-! ### Runs -/

section Runs
variable {P : Platform F} {w : World} {ops : ι → Operation F} {envs : ι → Env F}
  {tr : List (ι × Call F)} {T : Pool ι World (Call F) OpError Unit}

/-- What is written for the rules is what their last evaluation gives. -/
theorem writeTags_of_run (hrun : Run (daemon P w ops envs) tr T) {before rest : List (ι × Call F)} {j : ι}
    {path : String} {tags : List String} {diff : TagDiff} {r : Except OpError Unit}
    (htr : tr = before ++ (j, .writeTags path tags (some diff) r) :: rest) :
    ∃ q overrides, lastEvaluation j before = some (q, overrides) ∧ q.path = path ∧
      diff = q.diff overrides := by
  obtain ⟨s, s', -, hscript⟩ := hrun.allowed (follows_daemon P) before rest j _ htr
  obtain ⟨-, -, q, overrides, heval, hpath, -, hdiff, -⟩ := hscript
  exact ⟨q, overrides, heval, hpath, hdiff⟩

/-- Every override that is ever found was recorded before the run. -/
theorem overrides_of_run (hrun : Run (daemon P w ops envs) tr T) {j : ι} {q : Query F}
    {overrides : List (String × String)} (h : (j, .evaluate q (.ok overrides)) ∈ tr) {tag rule : String}
    (ho : (tag, rule) ∈ overrides) : w.db.Overridden q.fileId tag rule := by
  have hinv := (hrun.invariant (P := fun i => (ops i).script.protocol)
    (fun tr s => (∀ i tag rule, s.db.Overridden i tag rule → w.db.Overridden i tag rule) ∧
      ∀ j q overrides, (j, .evaluate q (.ok overrides)) ∈ tr → ∀ tag rule, (tag, rule) ∈ overrides →
        w.db.Overridden q.fileId tag rule) (follows_daemon P) ⟨fun _ _ _ h => h, by simp⟩ ?_).1
  · exact hinv.2 j q overrides h tag rule ho
  rintro tr i l s s' ⟨heffect, -⟩ ⟨hstore, hfound⟩
  refine ⟨fun i tag rule ho => hstore i tag rule (heffect.overridden ho), ?_⟩
  intro j q overrides hmem tag rule ho
  rcases List.mem_append.mp hmem with hmem | hmem
  · exact hfound j q overrides hmem tag rule ho
  · obtain ⟨rfl, rfl⟩ := Prod.mk.inj (List.mem_singleton.mp hmem)
    obtain ⟨-, h⟩ := heffect
    rw [h overrides rfl] at ho
    exact hstore _ _ _ (mem_tagOverridePairs.mp ho)

/-- **User removal beats rules** exactly in the runs in which the rules happen not to give the tag again.
The removal does nothing for it: every override found is older than the run. -/
theorem removalBeatsRules_iff (hrun : Run (daemon P w ops envs) tr T) :
    (RemovalBeatsRules ops tr ↔ Shielded ops tr) ∧
      ∀ j q overrides tag rule, (j, .evaluate q (.ok overrides)) ∈ tr → (tag, rule) ∈ overrides →
        w.db.Overridden q.fileId tag rule := by
  refine ⟨⟨?_, ?_⟩, fun j q overrides tag rule h ho => overrides_of_run hrun h ho⟩
  · intro h path tag rule before removal after j tags diff rest htr htaken hlater q overrides hq
    by_contra hgives
    obtain ⟨hnew, hattr⟩ := not_or.mp hgives
    refine h path tag rule before removal after j _ rest htr htaken hlater ⟨rfl, ?_⟩
    obtain ⟨q', overrides', hq', -, rfl⟩ := writeTags_of_run hrun htr
    rw [hq] at hq'
    obtain ⟨rfl, rfl⟩ := Prod.mk.inj (Option.some.inj hq')
    exact mem_eval_sources.mpr ⟨hnew, rule, not_not.mp hattr, rfl⟩
  · intro h path tag rule before removal after j write rest htr htaken hlater hwrites
    cases write with
    | writeTags p tags diff r =>
      cases diff with
      | none => exact hwrites
      | some diff =>
        cases r with
        | error e => exact hwrites
        | ok _ =>
          obtain ⟨rfl, hsource⟩ := hwrites
          obtain ⟨q, overrides, hq, -, rfl⟩ := writeTags_of_run hrun htr
          obtain ⟨hnew, rule', hattr, hname⟩ := mem_eval_sources.mp hsource
          have hrule : rule = rule' := (String.append_right_inj _).mp hname
          rcases h p tag rule before removal after j tags _ rest htr htaken hlater q overrides hq with h | h
          · exact hnew h
          · exact h (hrule ▸ hattr)
    | _ => exact hwrites

end Runs

/-! ### A tag that comes back -/

section Decidable

local instance lawfulBEq_pair : LawfulBEq (String × String) := inferInstance

instance (path tag rule : String) : DecidablePred (RuleWrites (F := F) path tag rule) := fun l => by
  unfold RuleWrites
  split <;> infer_instance

instance (path tag : String) : DecidablePred (UserRemoves (F := F) path tag) := fun l => by
  unfold UserRemoves
  split <;> infer_instance

instance (path tag : String) : DecidablePred (UserAdds (F := F) path tag) := fun l => by
  unfold UserAdds
  split <;> infer_instance

end Decidable

/-- Between two runs of the processor a user removes the tag. -/
def removedOps (i : ℕ) : Operation Unit :=
  if i = 1 then .handleTag .remove ["/a"] ["t"] else .processFile "/a"

theorem oneFile_valid : Tables.Valid { files := [⟨1, "/a", 0, 0, 0, 0, 0⟩] } := by decide

/-- One indexed file, and one rule that tags every file. -/
def removedPool : Pool ℕ World (Call Unit) OpError Unit :=
  daemon plainPlatform (worldOf ⟨{ files := [⟨1, "/a", 0, 0, 0, 0, 0⟩] }, oneFile_valid⟩
    [("/a", { stat := ⟨0, 0, 0, 0⟩ })]) removedOps fun _ => plainEnv [⟨"r", 0, fun _ => some ["t"]⟩]

/-- One operation after the other. -/
def removedRun : List (ℕ × Call Unit) × Pool ℕ World (Call Unit) OpError Unit :=
  removedPool.exec (calls 0 14 ++ calls 1 7 ++ calls 2 14)

/-- A list around two of its members. -/
theorem split_two {α : Type} {l : List α} {k m : ℕ} {a b : α} (hm : l[m]? = some b)
    (hk : (l.take m)[k]? = some a) :
    l = (l.take m).take k ++ a :: (l.take m).drop (k + 1) ++ b :: l.drop (m + 1) := by
  have hsplit : ∀ {l : List α} {k : ℕ} {a : α}, l[k]? = some a → l = l.take k ++ a :: l.drop (k + 1) := by
    intro l k a h
    obtain ⟨hk, rfl⟩ := List.getElem?_eq_some_iff.mp h
    rw [List.getElem_cons_drop, List.take_append_drop]
  rw [← hsplit hk]
  exact hsplit hm

/-- The rule tags the file again after the user removed the tag. -/
theorem removal_forgotten :
    Run removedPool removedRun.1 removedRun.2 ∧ ¬ RemovalBeatsRules removedOps removedRun.1 := by
  refine ⟨removedPool.run_exec _, fun h => ?_⟩
  obtain ⟨⟨j, write⟩, hm, hwrite⟩ := Option.any_eq_true _ _ |>.mp
    (show (removedRun.1[27]?.any fun e => decide (e.1 = 2 ∧ RuleWrites "/a" "t" "r" e.2)) = true by
      decide +kernel)
  obtain ⟨⟨i, removal⟩, hk, hremoval⟩ := Option.any_eq_true _ _ |>.mp
    (show ((removedRun.1.take 27)[17]?.any fun e => decide (e.1 = 1 ∧ UserRemoves "/a" "t" e.2)) = true by
      decide +kernel)
  obtain ⟨rfl, hwrites⟩ := of_decide_eq_true hwrite
  obtain ⟨rfl, hremoves⟩ := of_decide_eq_true hremoval
  refine h "/a" "t" "r" _ _ _ 2 write _ (split_two hm hk) ⟨?_, ⟨["/a"], ["t"], rfl⟩, hremoves, ?_⟩ ?_ hwrites
  · decide +kernel
  · decide +kernel
  · intro e he
    rcases List.mem_append.mp he with he | he
    · have hnot : ∀ e ∈ (removedRun.1.take 27).take 17, e.1 ≠ 2 := by decide +kernel
      exact hnot e he
    · rw [List.mem_singleton.mp he]
      exact (by decide : 1 ≠ 2)

theorem removalBeatsRules_iff_removedRun :
    (RemovalBeatsRules removedOps removedRun.1 ↔ Shielded removedOps removedRun.1) ∧
      ∀ j q overrides tag rule, (j, .evaluate q (.ok overrides)) ∈ removedRun.1 →
        (tag, rule) ∈ overrides → removedPool.store.db.Overridden q.fileId tag rule :=
  removalBeatsRules_iff (removedPool.run_exec _)

end Tilbo.Daemon.Overrides
