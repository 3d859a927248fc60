import Tilbo.Harvester.Meta
import Tilbo.Lib.Pairs
import Mathlib.Data.List.Induction

/-! # The rule engine

`Engine.Eval`: which tags the rules add to a file, and which rule each is attributed to. A rule is its
name, its priority, and what it yields for a metadata map (nothing if it fails); the engine holds the
rules in ascending priority.

`attribution` says the same without the loop: the last rule that yields the tag and is not suppressed for
it. -/

namespace Tilbo.Rules.Engine

open Tilbo.Harvester.Meta Tilbo.Lib.Pairs

variable {F : Type}

/-- The interface `Rule`; `eval` is `none` on an error. -/
structure Rule (F : Type) where
  name : String
  priority : ℤ
  eval : MetaMap F → Option (List String)

/-- The result of an evaluation. -/
structure TagDiff where
  added : List String
  sources : List (String × String)
deriving DecidableEq, Repr

/-- `isSuppressed`; the overrides are pairs of a tag and a rule name. -/
def isSuppressed (tag ruleName : String) (overrides : List (String × String)) : Bool :=
  (tag, ruleName) ∈ overrides

/-- The loop over the tags of one rule. -/
def addTags (overrides : List (String × String)) (ruleName : String) (toAdd : List (String × String))
    (tags : List String) : List (String × String) :=
  tags.foldl (fun toAdd tag =>
    if isSuppressed tag ruleName overrides then toAdd else put toAdd tag ruleName) toAdd

/-- The loop over the rules: a failing rule is skipped. -/
def collect (md : MetaMap F) (overrides : List (String × String)) (rs : List (Rule F)) :
    List (String × String) :=
  rs.foldl (fun toAdd rule => match rule.eval md with
    | none => toAdd
    | some tags => addTags overrides rule.name toAdd tags) []

/-- `Engine.Eval`; it reports no error. -/
def eval (rs : List (Rule F)) (order : MapOrder) (md : MetaMap F) (existingTags : List String)
    (overrides : List (String × String)) : TagDiff :=
  let toAdd := collect md overrides rs
  let added := (order.visit (toAdd.map Prod.fst)).filter (· ∉ existingTags)
  ⟨added, added.filterMap fun tag => (toAdd.lookup tag).map fun ruleName => (tag, "rule:" ++ ruleName)⟩

/-- Of the overrides only matters which there are. -/
theorem eval_congr {rs : List (Rule F)} {order : MapOrder} {md : MetaMap F} {existing : List String}
    {overrides overrides' : List (String × String)} (h : ∀ p, p ∈ overrides' ↔ p ∈ overrides) :
    eval rs order md existing overrides' = eval rs order md existing overrides := by
  have hsuppressed : ∀ tag ruleName, isSuppressed tag ruleName overrides' = isSuppressed tag ruleName overrides :=
    fun tag ruleName => decide_eq_decide.mpr (h _)
  simp only [eval, collect, addTags, hsuppressed]

/-! ### Attribution -/

/-- The rule yields the tag and is not suppressed for it. -/
def Rule.fires (md : MetaMap F) (overrides : List (String × String)) (tag : String) (rule : Rule F) :
    Bool :=
  ((rule.eval md).getD []).contains tag && !isSuppressed tag rule.name overrides

/-- The name of the last rule that fires for the tag. -/
def attribution (md : MetaMap F) (overrides : List (String × String)) (rs : List (Rule F))
    (tag : String) : Option String :=
  (rs.filter (Rule.fires md overrides tag)).getLast?.map Rule.name

variable {rs : List (Rule F)} {order : MapOrder} {md : MetaMap F} {existing : List String}
  {overrides toAdd : List (String × String)} {tag ruleName : String} {tags : List String}

theorem attribution_append {rule : Rule F} : attribution md overrides (rs ++ [rule]) tag =
    if rule.fires md overrides tag then some rule.name else attribution md overrides rs tag := by
  unfold attribution
  split_ifs with h <;> simp [List.filter_append, h]

theorem lookup_addTags : (addTags overrides ruleName toAdd tags).lookup tag =
    if tag ∈ tags ∧ isSuppressed tag ruleName overrides = false then some ruleName
    else toAdd.lookup tag := by
  induction tags generalizing toAdd with
  | nil => simp [addTags]
  | cons t tags ih =>
    have hstep : addTags overrides ruleName toAdd (t :: tags) = addTags overrides ruleName
        (if isSuppressed t ruleName overrides then toAdd else put toAdd t ruleName) tags := rfl
    rw [hstep, ih]
    by_cases hs : isSuppressed t ruleName overrides = true
    · rw [if_pos hs]
      by_cases ht : tag = t
      · simp [ht, hs]
      · simp [ht]
    · rw [if_neg hs, lookup_put]
      by_cases ht : tag = t
      · simp [ht, hs]
      · simp [ht]

theorem mem_keys_addTags : tag ∈ (addTags overrides ruleName toAdd tags).map Prod.fst ↔
    tag ∈ toAdd.map Prod.fst ∨ tag ∈ tags ∧ isSuppressed tag ruleName overrides = false := by
  induction tags generalizing toAdd with
  | nil => simp [addTags]
  | cons t tags ih =>
    have hstep : addTags overrides ruleName toAdd (t :: tags) = addTags overrides ruleName
        (if isSuppressed t ruleName overrides then toAdd else put toAdd t ruleName) tags := rfl
    rw [hstep, ih]
    by_cases hs : isSuppressed t ruleName overrides = true
    · rw [if_pos hs, List.mem_cons]
      refine or_congr_right ⟨fun h => ⟨Or.inr h.1, h.2⟩, ?_⟩
      rintro ⟨rfl | h, hns⟩
      · rw [hs] at hns
        exact Bool.noConfusion hns
      · exact ⟨h, hns⟩
    · have hns : isSuppressed t ruleName overrides = false := by simpa using hs
      rw [if_neg hs, mem_keys_put, List.mem_cons, or_assoc]
      refine or_congr_right ⟨?_, ?_⟩
      · rintro (rfl | h)
        · exact ⟨Or.inl rfl, hns⟩
        · exact ⟨Or.inr h.1, h.2⟩
      · rintro ⟨rfl | h, hns⟩
        · exact Or.inl rfl
        · exact Or.inr ⟨h, hns⟩

/-- The loop attributes each tag to the last rule that fires for it. -/
theorem lookup_collect : (collect md overrides rs).lookup tag = attribution md overrides rs tag := by
  induction rs using List.reverseRecOn with
  | nil => rfl
  | append_singleton rs rule ih =>
    have hstep : collect md overrides (rs ++ [rule]) = match rule.eval md with
        | none => collect md overrides rs
        | some tags => addTags overrides rule.name (collect md overrides rs) tags := by
      rw [collect, List.foldl_append]
      rfl
    rw [hstep, attribution_append]
    cases hr : rule.eval md with
    | none => simp [Rule.fires, hr, ih]
    | some tags => simp [Rule.fires, hr, lookup_addTags, ih]

theorem mem_keys_collect :
    tag ∈ (collect md overrides rs).map Prod.fst ↔ (attribution md overrides rs tag).isSome := by
  induction rs using List.reverseRecOn with
  | nil => simp [collect, attribution]
  | append_singleton rs rule ih =>
    have hstep : collect md overrides (rs ++ [rule]) = match rule.eval md with
        | none => collect md overrides rs
        | some tags => addTags overrides rule.name (collect md overrides rs) tags := by
      rw [collect, List.foldl_append]
      rfl
    rw [hstep, attribution_append]
    cases hr : rule.eval md with
    | none => simp only [ih]; simp [Rule.fires, hr]
    | some tags =>
      rw [mem_keys_addTags, ih]
      by_cases hf : tag ∈ tags ∧ isSuppressed tag rule.name overrides = false
      · simp [Rule.fires, hr, hf]
      · simp [Rule.fires, hr, hf]

/-- **What `Eval` adds**: the tags that some rule fires for and that are not there yet. -/
theorem mem_eval_added : tag ∈ (eval rs order md existing overrides).added ↔
    tag ∉ existing ∧ (attribution md overrides rs tag).isSome := by
  simp only [eval, List.mem_filter, order.mem_visit, mem_keys_collect, decide_eq_true_eq]
  exact and_comm

/-- **What `Eval` attributes** a tag to. -/
theorem mem_eval_sources {source : String} :
    (tag, source) ∈ (eval rs order md existing overrides).sources ↔
      tag ∉ existing ∧ ∃ ruleName, attribution md overrides rs tag = some ruleName ∧
        source = "rule:" ++ ruleName := by
  simp only [eval, List.mem_filterMap, List.mem_filter, order.mem_visit, mem_keys_collect,
    decide_eq_true_eq, lookup_collect, Option.map_eq_some_iff, Prod.mk.injEq]
  refine ⟨?_, ?_⟩
  · rintro ⟨t, ⟨-, ht⟩, r, hr, rfl, rfl⟩
    exact ⟨ht, r, hr, rfl⟩
  · rintro ⟨ht, r, hr, rfl⟩
    exact ⟨tag, ⟨by simp [hr], ht⟩, r, hr, rfl, rfl⟩

/-! ### The law of the engine -/

/-- The rule does not fail, and yields the tag, for which it is not suppressed. -/
def Rule.Yields (rule : Rule F) (md : MetaMap F) (overrides : List (String × String)) (tag : String) : Prop :=
  ∃ tags, rule.eval md = some tags ∧ tag ∈ tags ∧ (tag, rule.name) ∉ overrides

theorem fires_iff {rule : Rule F} : rule.fires md overrides tag = true ↔ rule.Yields md overrides tag := by
  unfold Rule.fires Rule.Yields isSuppressed
  cases hr : rule.eval md with
  | none => simp
  | some tags => simp

/-- The last rule that yields the tag. -/
theorem attribution_eq_some : attribution md overrides rs tag = some ruleName ↔
    ∃ before rule after, rs = before ++ rule :: after ∧ rule.Yields md overrides tag ∧
      (∀ r ∈ after, ¬ r.Yields md overrides tag) ∧ ruleName = rule.name := by
  induction rs using List.reverseRecOn with
  | nil => simp [attribution]
  | append_singleton rs rule ih =>
    rw [attribution_append]
    by_cases hf : rule.fires md overrides tag = true
    · rw [if_pos hf, Option.some_inj]
      constructor
      · rintro rfl
        exact ⟨rs, rule, [], rfl, fires_iff.mp hf, by simp, rfl⟩
      · rintro ⟨before, rule', after, heq, -, hno, rfl⟩
        rcases List.eq_nil_or_concat after with rfl | ⟨after, last, rfl⟩
        · obtain ⟨-, heq⟩ := List.append_inj' heq rfl
          cases heq
          rfl
        · have heq' : rs ++ [rule] = (before ++ rule' :: after) ++ [last] := by simpa using heq
          obtain ⟨-, heq'⟩ := List.append_inj' heq' rfl
          cases heq'
          exact absurd (fires_iff.mp hf) (hno rule (by simp))
    · rw [if_neg hf, ih]
      constructor
      · rintro ⟨before, rule', after, rfl, hy, hno, rfl⟩
        refine ⟨before, rule', after ++ [rule], by simp, hy, fun r hr => ?_, rfl⟩
        rcases List.mem_append.mp hr with hr | hr
        · exact hno r hr
        · rw [List.mem_singleton.mp hr]
          exact fun h => hf (fires_iff.mpr h)
      · rintro ⟨before, rule', after, heq, hy, hno, rfl⟩
        rcases List.eq_nil_or_concat after with rfl | ⟨after, last, rfl⟩
        · obtain ⟨-, heq⟩ := List.append_inj' heq rfl
          cases heq
          exact absurd (fires_iff.mpr hy) hf
        · have heq' : rs ++ [rule] = (before ++ rule' :: after) ++ [last] := by simpa using heq
          obtain ⟨hrs, -⟩ := List.append_inj' heq' rfl
          exact ⟨before, rule', after, hrs, hy, fun r hr => hno r (by simp [hr]), rfl⟩

theorem attribution_isSome :
    (attribution md overrides rs tag).isSome ↔ ∃ rule ∈ rs, rule.Yields md overrides tag := by
  unfold attribution
  rw [Option.isSome_map, List.getLast?_isSome, ne_eq, List.filter_eq_nil_iff]
  simp [fires_iff]

theorem nodup_addTags (h : (toAdd.map Prod.fst).Nodup) :
    ((addTags overrides ruleName toAdd tags).map Prod.fst).Nodup := by
  induction tags generalizing toAdd with
  | nil => exact h
  | cons t tags ih =>
    show ((addTags overrides ruleName (if isSuppressed t ruleName overrides then toAdd else put toAdd t ruleName)
      tags).map Prod.fst).Nodup
    split_ifs
    · exact ih h
    · exact ih (nodup_keys_put h)

/-- No tag comes up twice. -/
theorem nodup_collect : ((collect md overrides rs).map Prod.fst).Nodup := by
  unfold collect
  induction rs using List.reverseRecOn with
  | nil => exact List.nodup_nil
  | append_singleton rs rule ih =>
    rw [List.foldl_append]
    show ((match rule.eval md with
      | none => _
      | some tags => addTags overrides rule.name _ tags).map Prod.fst).Nodup
    cases rule.eval md with
    | none => exact ih
    | some tags => exact nodup_addTags ih

theorem nodup_eval_added : (eval rs order md existing overrides).added.Nodup :=
  ((order.perm _).nodup_iff.mpr nodup_collect).filter _

/-- The sources are those of the added tags. -/
theorem eval_sources_keys : (eval rs order md existing overrides).sources.map Prod.fst =
    (eval rs order md existing overrides).added := by
  have hall : ∀ l : List String, (∀ t ∈ l, (attribution md overrides rs t).isSome) →
      (l.filterMap fun t => ((collect md overrides rs).lookup t).map fun r => (t, "rule:" ++ r)).map Prod.fst = l := by
    intro l hl
    induction l with
    | nil => rfl
    | cons t l ih =>
      obtain ⟨r, hr⟩ := Option.isSome_iff_exists.mp (hl t (by simp))
      rw [List.filterMap_cons_some (by rw [lookup_collect, hr]; rfl), List.map_cons,
        ih fun t' ht' => hl t' (by simp [ht'])]
  exact hall _ fun t ht => (mem_eval_added.mp ht).2

/-- **The law of the engine.** It adds, once each, the tags that the file does not have and that some rule yields;
the source of each is the last rule that yields it; and with these tags there, there is nothing to add. -/
theorem eval_law (rs : List (Rule F)) (order order' : MapOrder) (md : MetaMap F) (existing : List String)
    (overrides : List (String × String)) :
    (eval rs order md existing overrides).added.Nodup ∧
    (∀ tag, tag ∈ (eval rs order md existing overrides).added ↔
      tag ∉ existing ∧ ∃ rule ∈ rs, rule.Yields md overrides tag) ∧
    (eval rs order md existing overrides).sources.map Prod.fst = (eval rs order md existing overrides).added ∧
    (∀ tag source, (tag, source) ∈ (eval rs order md existing overrides).sources →
      ∃ before rule after, rs = before ++ rule :: after ∧ rule.Yields md overrides tag ∧
        (∀ r ∈ after, ¬ r.Yields md overrides tag) ∧ source = "rule:" ++ rule.name) ∧
    eval rs order' md (existing ++ (eval rs order md existing overrides).added) overrides = ⟨[], []⟩ := by
  refine ⟨nodup_eval_added, fun tag => by rw [mem_eval_added, attribution_isSome], eval_sources_keys, ?_, ?_⟩
  · intro tag source h
    obtain ⟨-, ruleName, hr, rfl⟩ := mem_eval_sources.mp h
    obtain ⟨before, rule, after, hrs, hy, hno, rfl⟩ := attribution_eq_some.mp hr
    exact ⟨before, rule, after, hrs, hy, hno, rfl⟩
  · have hadded : (eval rs order' md (existing ++ (eval rs order md existing overrides).added) overrides).added =
      [] := by
      refine List.eq_nil_iff_forall_not_mem.mpr fun tag h => ?_
      obtain ⟨hno, hsome⟩ := mem_eval_added.mp h
      rw [List.mem_append, not_or] at hno
      exact hno.2 (mem_eval_added.mpr ⟨hno.1, hsome⟩)
    have hsources : (eval rs order' md (existing ++ (eval rs order md existing overrides).added)
        overrides).sources.map Prod.fst = _ := eval_sources_keys
    rw [hadded, List.map_eq_nil_iff] at hsources
    exact congrArg₂ TagDiff.mk hadded hsources

end Tilbo.Rules.Engine
