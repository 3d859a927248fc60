import Tilbo.Lib.Lookalikes
import Tilbo.Index.StoreSpec

/-! # The stale purge

`DeleteStaleFiles` is for the rows below a directory that a scan has not seen. It finds them with a `LIKE` pattern
made of the directory's name: rows that only resemble it go as well. -/

namespace Tilbo.Index.Purge

open Tilbo.Index.Schema Tilbo.Index.Schema.Tables Tilbo.Index.Statements Tilbo.Index.Store Tilbo.Index.StoreSpec
open Tilbo.Lib.Like Tilbo.Lib.Rows Tilbo.Lib.Txn

variable {basePath : String} {since : ℤ} {s s' : DB} {p : FileRow → Bool}

/-- `basePath`, with a slash at its end. -/
def directory (basePath : String) : List Char :=
  basePath.toList ++ (if basePath.toList.getLast? = some '/' then [] else ['/'])

/-- Is the row below the directory, and not refreshed since? -/
def expired (basePath : String) (since : ℤ) (f : FileRow) : Bool :=
  (directory basePath).isPrefixOf f.path.toList && f.indexedAt < since

/-- Exactly the rows that `p` picks are gone, with what hangs on them. -/
structure Purged (p : FileRow → Bool) (s s' : DB) : Prop extends Removed p s s' where
  embeddingsGone : ∀ r ∈ s'.fileEmbeddings, r ∈ s.fileEmbeddings ∧ picks s.toTables p r.fileId = false

/-- No row that was not refreshed resembles a row below the directory without being one. -/
def NoLookalike (basePath : String) (since : ℤ) (s : DB) : Prop :=
  ∀ f ∈ s.files, f.indexedAt < since → like (stalePrefix basePath) f.path.toList = true →
    directory basePath <+: f.path.toList

/-! ### The pattern -/

theorem stalePrefix_eq (basePath : String) : stalePrefix basePath = directory basePath ++ ['%'] := by
  unfold stalePrefix directory
  split_ifs <;> simp

theorem expired_iff {f : FileRow} :
    expired basePath since f = true ↔ directory basePath <+: f.path.toList ∧ f.indexedAt < since := by
  simp [expired]

/-- What is below the directory matches. -/
theorem stale_of_expired {f : FileRow} (h : expired basePath since f = true) : stale basePath since f = true := by
  obtain ⟨⟨v, hv⟩, hold⟩ := expired_iff.mp h
  have hlike : like (stalePrefix basePath) f.path.toList = true := by
    rw [stalePrefix_eq, ← hv]
    exact like_self_append _ (like_percent_nil v)
  simp [stale, hlike, hold]

theorem stale_eq_expired_iff : (∀ f ∈ s.files, stale basePath since f = expired basePath since f) ↔
    NoLookalike basePath since s := by
  constructor
  · intro h f hf hold hlike
    exact (expired_iff.mp ((h f hf).symm.trans (by simp [stale, hlike, hold]))).1
  · intro h f hf
    refine Bool.eq_iff_iff.mpr ⟨fun hst => ?_, stale_of_expired⟩
    obtain ⟨hlike, hold⟩ : _ ∧ _ := by simpa [stale] using hst
    exact expired_iff.mpr ⟨h f hf hold hlike, hold⟩

/-- The directory's name has no wildcard and no letter if `basePath` has none. -/
theorem plain_directory_iff : (∀ c ∈ directory basePath, Plain c) ↔ ∀ c ∈ basePath.toList, Plain c := by
  unfold directory
  constructor
  · exact fun h c hc => h c (List.mem_append_left _ hc)
  · intro h c hc
    rcases List.mem_append.mp hc with hc | hc
    · exact h c hc
    · split_ifs at hc
      · cases hc
      · obtain rfl := List.mem_singleton.mp hc
        decide

/-! ### What is deleted -/

/-- The rows that the pattern picks are gone, and no others. -/
theorem wp_purged :
    wp (deleteStaleFiles basePath since) (fun _ s' => Purged (stale basePath since) s s') (fun _ s' => s' = s) s := by
  refine wp_tx (wp_andThen (wp_errorf (wp_stmt trivial ?_)))
  refine wp_errorf (wp_exec ⟨removed_deleteFiles fun r hr hno => ?_, fun r hr => ?_⟩ trivial)
  · exact List.mem_filter.mpr ⟨hr, by simp [hno]⟩
  · obtain ⟨hr, hno⟩ := List.mem_filter.mp hr
    exact ⟨hr, by simpa using hno⟩

theorem picks_congr {q : FileRow → Bool} (h : ∀ f ∈ s.files, p f = q f) (i : ℕ) :
    picks s.toTables p i = picks s.toTables q i := by
  unfold picks
  rw [Bool.eq_iff_iff, List.any_eq_true, List.any_eq_true]
  refine exists_congr fun f => and_congr_right fun hf => ?_
  rw [h f hf]

/-- Two tests agree on what is purged if they agree on the rows. -/
theorem Purged.congr_iff {q : FileRow → Bool} (hp : Purged p s s') :
    Purged q s s' ↔ ∀ f ∈ s.files, p f = q f := by
  constructor
  · intro hq f hf
    have hmem : f ∈ s.files.filter (fun f => !p f) ↔ f ∈ s.files.filter fun f => !q f := by
      rw [← hp.files, hq.files]
    simpa [List.mem_filter, hf] using hmem
  · intro h
    have hpicks := picks_congr h
    refine ⟨⟨?_, ?_, ?_, ?_, ?_, ?_⟩, ?_⟩
    · rw [hp.files]
      exact List.filter_congr fun f hf => by rw [h f hf]
    · intro j n
      rw [hp.tagged, hpicks]
    · intro j k v
      rw [hp.hasMeta, hpicks]
    · intro j n r
      rw [hp.hasProvenance, hpicks]
    · intro j n r
      rw [hp.overridden, hpicks]
    · exact fun r hr hno => hp.embeddings r hr ((hpicks _).trans hno)
    · exact fun r hr => ⟨(hp.embeddingsGone r hr).1, (hpicks _).symm.trans (hp.embeddingsGone r hr).2⟩

/-- An index with one file. -/
def only (path : String) (indexedAt : ℤ) : DB :=
  ⟨{ files := [⟨1, path, 0, 0, 0, 0, indexedAt⟩] }, by constructor <;> simp [UniqueKey, Refs]⟩

/-- Another name than one without wildcards and letters is mistaken for the directory. -/
theorem exists_not_noLookalike (since : ℤ) (h : ∃ c ∈ basePath.toList, ¬ Plain c) :
    ∃ s, ¬ NoLookalike basePath since s := by
  have hdir : ∃ c ∈ directory basePath, ¬ Plain c := by
    by_contra hall
    push Not at hall
    obtain ⟨c, hc, hplain⟩ := h
    exact hplain (plain_directory_iff.mp hall c hc)
  obtain ⟨t, hlike, hnot⟩ := exists_lookalike hdir []
  rw [← stalePrefix_eq, List.append_nil] at hlike
  rw [List.append_nil] at hnot
  refine ⟨only (String.ofList t) (since - 1), fun hno => hnot ?_⟩
  have hrow := hno ⟨1, String.ofList t, 0, 0, 0, 0, since - 1⟩ (by simp [only]) (by simp)
  simpa using hrow (by simpa using hlike)

theorem noLookalike_of_plain (h : ∀ c ∈ basePath.toList, Plain c) (since : ℤ) (s : DB) :
    NoLookalike basePath since s := by
  intro f _ _ hlike
  rw [stalePrefix_eq] at hlike
  exact (like_starts_plain (plain_directory_iff.mpr h)).mp hlike

theorem wp_exact_iff (basePath : String) (since : ℤ) (s : DB) :
    wp (deleteStaleFiles basePath since)
      (fun _ s' => Purged (expired basePath since) s s' ↔ NoLookalike basePath since s) (fun _ s' => s' = s) s :=
  wp_purged.mono (fun _ _ hp => hp.congr_iff.trans stale_eq_expired_iff) fun _ _ h => h

/-- **The stale purge is exact** if and only if no row that was not refreshed resembles one below the directory. It is
exact for every index if and only if the directory's name has no `%`, no `_` and no ASCII letter. -/
theorem deleteStaleFiles_exact_iff (basePath : String) (since : ℤ) :
    (∀ s, wp (deleteStaleFiles basePath since)
      (fun _ s' => Purged (expired basePath since) s s' ↔ NoLookalike basePath since s) (fun _ s' => s' = s) s) ∧
    ((∀ s, wp (deleteStaleFiles basePath since)
      (fun _ s' => Purged (expired basePath since) s s') (fun _ s' => s' = s) s) ↔ ∀ c ∈ basePath.toList, Plain c) := by
  refine ⟨wp_exact_iff basePath since, fun h => ?_, fun h s => ?_⟩
  · by_contra hnot
    push Not at hnot
    obtain ⟨s, hs⟩ := exists_not_noLookalike since hnot
    obtain ⟨c, hrun⟩ : ∃ c, deleteStaleFiles basePath since ⟨s, []⟩ = (.ok (), c) := ⟨_, rfl⟩
    exact hs (((wp_exact_iff basePath since s).ok hrun).mp ((h s).ok hrun))
  · exact (wp_exact_iff basePath since s).mono (fun _ _ hiff => hiff.mpr (noLookalike_of_plain h since s))
      fun _ _ e => e

/-! ### A directory with an underscore in its name -/

/-- A purge of `/my_docs` deletes the row of a file in `/my-docs`. -/
theorem sibling_purged :
    ∃ c, deleteStaleFiles "/my_docs" 100 ⟨only "/my-docs/a" 50, []⟩ = (.ok (), c) ∧ c.store.files = [] ∧
      ¬ Purged (expired "/my_docs" 100) (only "/my-docs/a" 50) c.store := by
  refine ⟨_, rfl, by decide, fun h => ?_⟩
  have hfiles := h.files
  revert hfiles
  decide

end Tilbo.Index.Purge
