import Tilbo.Lib.Ties
import Tilbo.Rules.Registry

/-! # The order of the rules

`Engine.Register` appends a rule and sorts all of them again. `sort.Slice` is not stable, so rules of one priority may
end up in any order, and with them the rule that a tag is attributed to. `keepsOrder_iff` says when the order of
registration decides, as the registry has it: no two rules have the same priority. -/

namespace Tilbo.Rules.Order

open Tilbo.Lib.Ties Tilbo.Harvester.Meta Tilbo.Rules.Engine Tilbo.Rules.Registry

variable {F : Type} {sort : List (Rule F) → List (Rule F)} {start rules l : List (Rule F)} {md : MetaMap F}
  {overrides : List (String × String)} {tag ruleName : String}

/-- The rules of the engine after a reset and these registrations. -/
def registered (sort : List (Rule F) → List (Rule F)) (start rules : List (Rule F)) : List (Rule F) :=
  (Step.reset :: rules.map .register).foldl (Step.apply sort) start

/-- However `sort.Slice` leaves ties, each rule is there once, in ascending priority, and rules of equal priority are in
the order in which they were registered. -/
def KeepsOrder (start rules : List (Rule F)) : Prop :=
  ∀ sort, Sorts Rule.priority sort → InOrder Rule.priority rules (registered sort start rules)

theorem registered_eq : registered sort start rules = rules.foldl (register sort) [] := by
  have hnone : ∀ s ∈ rules.map Step.register, s ≠ .reset := by simp
  have hrules : (rules.map Step.register).filterMap Step.rule = rules := by
    simp [List.filterMap_map, Function.comp_def, Step.rule]
  rw [registered, List.foldl_cons, apply_rules hnone, hrules]
  rfl

/-- Each rule is there once, whatever the priorities. -/
theorem registered_perm (hsort : Sorts Rule.priority sort) : (registered sort start rules).Perm rules := by
  rw [registered_eq]
  exact register_perm (fun l => (hsort l).1) [] rules

/-- The priorities ascend, whatever they are. -/
theorem registered_ascending (hsort : Sorts Rule.priority sort) :
    Ascending Rule.priority (registered sort start rules) := by
  rw [registered_eq]
  exact ordered_register (fun l => (hsort l).2) List.Pairwise.nil

/-- The last registration sorts all of the rules. -/
theorem registered_concat {rule : Rule F} :
    registered sort start (rules ++ [rule]) = sort (registered sort start rules ++ [rule]) := by
  rw [registered_eq, registered_eq, List.foldl_append]
  rfl

theorem keepsOrder_of_noTies (h : NoTies Rule.priority rules) : KeepsOrder start rules := fun _ hsort =>
  h.inOrder (registered_perm hsort) (registered_ascending hsort)

/-- **The order of registration decides among rules of equal priority** if and only if there are none. -/
theorem keepsOrder_iff (start rules : List (Rule F)) : KeepsOrder start rules ↔ NoTies Rule.priority rules := by
  constructor
  · intro h a ha b hb hkey
    by_contra hne
    obtain ⟨swapped, hperm, hascending, hno⟩ := exists_not_inOrder ha hb hkey hne
    obtain ⟨sort, hsorts, hswapped⟩ := exists_sorts hperm hascending
    obtain ⟨front, last, hrules⟩ := (List.eq_nil_or_concat rules).resolve_left (List.ne_nil_of_mem ha)
    rw [List.concat_eq_append] at hrules
    have hlast : (registered sort start front ++ [last]).Perm rules := by
      rw [hrules]
      exact (registered_perm hsorts).append_right [last]
    have hall : registered sort start rules = swapped := by
      rw [hrules, registered_concat, hswapped _ hlast]
    exact hno (hall ▸ h sort hsorts)
  · exact keepsOrder_of_noTies

/-- After a reload the rules are those of the files as a stable sort leaves them, if no two have the same priority. -/
theorem reload_eq_stable {files : RuleFiles F} (hsort : Sorts Rule.priority sort)
    (h : NoTies Rule.priority files.rules) : afterReload sort files start = stable Rule.priority files.rules := by
  have hall : KeepsOrder start files.rules := keepsOrder_of_noTies h
  have hregistered := (hall sort hsort).eq_stable
  rwa [registered_eq, ← afterReload_eq] at hregistered

/-- **What the order decides.** Where it is kept, a tag is attributed to the rule of the highest priority that yields
it, and among those of equal priority to the last that was registered. -/
theorem attribution_of_inOrder (h : InOrder Rule.priority rules l) :
    attribution md overrides l tag = some ruleName ↔ ∃ before rule after, rules = before ++ rule :: after ∧
      rule.Yields md overrides tag ∧ (∀ r ∈ before, r.Yields md overrides tag → r.priority ≤ rule.priority) ∧
      (∀ r ∈ after, r.Yields md overrides tag → r.priority < rule.priority) ∧ rule.name = ruleName := by
  rw [attribution, Option.map_eq_some_iff]
  constructor
  · rintro ⟨rule, hlast, rfl⟩
    obtain ⟨before, after, hfires, hbefore, hafter⟩ := (h.filter _).getLast?.mp hlast
    obtain ⟨front, rest, hrules, hfront, hrest⟩ := List.filter_eq_append_iff.mp hfires
    obtain ⟨skipped, tail, htail, hskipped, hrule, htailFires⟩ := List.filter_eq_cons_iff.mp hrest
    refine ⟨front ++ skipped, rule, tail, by rw [hrules, htail, List.append_assoc], fires_iff.mp hrule,
      fun r hr hy => ?_, fun r hr hy => ?_, rfl⟩
    · rcases List.mem_append.mp hr with hr | hr
      · exact hbefore r (hfront ▸ List.mem_filter.mpr ⟨hr, fires_iff.mpr hy⟩)
      · exact absurd (fires_iff.mpr hy) (hskipped r hr)
    · exact hafter r (htailFires ▸ List.mem_filter.mpr ⟨hr, fires_iff.mpr hy⟩)
  · rintro ⟨before, rule, after, rfl, hy, hbefore, hafter, rfl⟩
    refine ⟨rule, (h.filter _).getLast?.mpr ⟨before.filter (Rule.fires md overrides tag),
      after.filter (Rule.fires md overrides tag), ?_, fun r hr => ?_, fun r hr => ?_⟩, rfl⟩
    · rw [List.filter_append, List.filter_cons_of_pos (fires_iff.mpr hy)]
    · obtain ⟨hr, hfires⟩ := List.mem_filter.mp hr
      exact hbefore r hr (fires_iff.mp hfires)
    · obtain ⟨hr, hfires⟩ := List.mem_filter.mp hr
      exact hafter r hr (fires_iff.mp hfires)

/-! ### Two rules of the same priority -/

/-- A sort that leaves ties in the opposite order. -/
def swapping (rules : List (Rule Unit)) : List (Rule Unit) := stable Rule.priority rules.reverse

def userRule : Rule Unit := ⟨"user", 0, fun _ => some ["work"]⟩

def systemRule : Rule Unit := ⟨"system", 0, fun _ => some ["work"]⟩

theorem override_ignored : Sorts Rule.priority swapping ∧ ¬ KeepsOrder [] [userRule, systemRule] ∧
    (registered swapping [] [userRule, systemRule]).map Rule.name = ["system", "user"] ∧
    attribution (fun _ => none) [] (registered swapping [] [userRule, systemRule]) "work" = some "user" := by
  have hsorts : Sorts Rule.priority swapping := fun l =>
    ⟨(sorts_stable _).1.trans l.reverse_perm, (sorts_stable _).2⟩
  refine ⟨hsorts, fun h => ?_, by decide, by decide⟩
  have hties := congrArg (List.map Rule.name) ((h swapping hsorts).ties 0)
  exact absurd hties (by decide)

end Tilbo.Rules.Order
