import Tilbo.Sidecar.Transparent

/-! # What is stored for a file

The tags and the provenance that belong to a file, in its attributes or in its sidecar, and what the methods of
the service do to them when any statement may fail: a method that writes does all of its work or none, and it
leaves alone what it does not write. A read is a failure if it reports an error, and also if the system call
fails and the method takes that for no value. -/

namespace Tilbo.Sidecar.Stored

open Tilbo.Lib Tilbo.Lib.Strings Tilbo.Lib.StringMaps Tilbo.Lib.Txn Tilbo.Lib.Txn.Prog
open Tilbo.Sidecar.Store Tilbo.Sidecar.Fallback Tilbo.Sidecar.Transparent Tilbo.Xattr.Csv

variable {svc : Service} {path : String} {w w' : Files} {c : Conn Files}

/-! ### Content -/

/-- The row of a file; nothing if its text is broken. -/
def sidecarData (path : String) (disk : Disk) : Option Data :=
  let text := ((disk.inode path).bind fun file => disk.sidecar (rowKey file)).getD ""
  if text = "" then some {} else unmarshal text

/-- The text that the tags of the file are read from, if there is a place for it. -/
def tagText (path : String) (w : Files) : Option String :=
  match attributes path w with
  | .ok attrs => some ((attrs.get? xattrTagKey).getD "")
  | .error .notSupported => (sidecarData path w.disk).map Data.tags
  | .error _ => none

/-- The tag list of the file. -/
def storedTags (path : String) (w : Files) : Option (Except ParseError (List String)) := (tagText path w).map parseTags

/-- What the text of the provenance says; an empty text and `null` say nothing. -/
def parseSource (val : String) : Option StringMap :=
  if val = "" then some empty else (unmarshalMap val).map (·.getD empty)

/-- The provenance of the file; nothing if its text is broken. -/
def storedSource (path : String) (w : Files) : Option StringMap :=
  match attributes path w with
  | .ok attrs => parseSource ((attrs.get? xattrSourceKey).getD "")
  | .error .notSupported => (sidecarData path w.disk).map Data.source
  | .error _ => none

/-- The same provenance, or a broken one as before. -/
def SameSource (path : String) (w w' : Files) : Prop :=
  Option.Rel StringMaps.Same (storedSource path w) (storedSource path w')

theorem SameSource.refl (w : Files) : SameSource path w w := by
  unfold SameSource
  cases storedSource path w with
  | none => exact .none
  | some m => exact .some (StringMaps.Same.refl m)

theorem SameSource.symm {w w' : Files} (h : SameSource path w w') : SameSource path w' w := by
  unfold SameSource at h ⊢
  generalize storedSource path w = a at h ⊢
  generalize storedSource path w' = b at h ⊢
  cases h with
  | some h => exact .some h.symm
  | none => exact .none

theorem SameSource.trans {w w' w'' : Files} (h : SameSource path w w') (h' : SameSource path w' w'') :
    SameSource path w w'' := by
  unfold SameSource at h h' ⊢
  generalize storedSource path w = a at h ⊢
  generalize storedSource path w' = b at h h'
  generalize storedSource path w'' = d at h' ⊢
  cases h with
  | some h =>
    cases h' with
    | some h' => exact .some (h.trans h')
  | none =>
    cases h' with
    | none => exact .none

/-- The tags and the provenance are the same. -/
structure Untouched (path : String) (w w' : Files) : Prop where
  tags : storedTags path w' = storedTags path w
  source : SameSource path w w'

theorem Untouched.refl (w : Files) : Untouched path w w := ⟨rfl, .refl w⟩

theorem Untouched.trans {w w' w'' : Files} (h : Untouched path w w') (h' : Untouched path w' w'') :
    Untouched path w w'' := ⟨h'.tags.trans h.tags, h.source.trans h'.source⟩

/-! ### Failed reads -/

/-- An error of the system call that the method takes for no value. -/
def swallowed (svc : Service) : Except XattrError String → Bool
  | .ok _ => false
  | .error .notExist => false
  | .error .notSupported => !svc.sidecarStore
  | .error .errno => true

/-- `ReadTags` cannot read the tags: it reports an error, or the system call fails. -/
def TagsUnreadable (svc : Service) (path : String) (c : Conn Files) : Prop :=
  (∃ err, (readTags svc path c).1 = .error err) ∨ swallowed svc (get path xattrTagKey ⟨c.store, c.faults.tail⟩).1

/-- `ReadSource` cannot read the provenance. -/
def SourceUnreadable (svc : Service) (path : String) (c : Conn Files) : Prop :=
  (∃ err, (readSource svc path c).1 = .error err) ∨
    swallowed svc (get path xattrSourceKey ⟨c.store, c.faults.tail⟩).1

/-! ### The row -/

/-- `Store.Read` finds the row; that there is none is one of its errors. -/
theorem wp_read {disk : Disk} : wp (Store.read path)
    (fun d disk' => disk' = disk ∧ sidecarData path disk = some d)
    (fun err disk' => disk' = disk ∧ (err = .noSidecar → sidecarData path disk = some {})) disk := by
  refine wp_andThen (wp_attempt (wp_stmt (wp_fail ⟨rfl, nofun⟩) ?_))
  cases hinode : disk.inode path with
  | none => exact wp_fail ⟨rfl, fun _ => by simp [sidecarData, hinode]⟩
  | some file =>
    refine wp_andThen (wp_wrap (wp_stmt ⟨rfl, nofun⟩ ?_))
    have hdata : sidecarData path disk = if (disk.sidecar (rowKey file)).getD "" = "" then some {} else
        unmarshal ((disk.sidecar (rowKey file)).getD "") := by simp [sidecarData, hinode]
    unfold decode
    dsimp only
    split_ifs with htext
    · exact wp_fail ⟨rfl, fun _ => by rw [hdata, if_pos htext]⟩
    · rw [if_neg htext] at hdata
      cases hparse : unmarshal ((disk.sidecar (rowKey file)).getD "") with
      | none => exact wp_fail ⟨rfl, nofun⟩
      | some d => exact wp_ret ⟨rfl, hdata.trans hparse⟩

/-- `Store.Write` writes the row, or fails. -/
theorem wp_write {disk : Disk} (d : Data) : wp (Store.write path d)
    (fun _ disk' => ∃ d', sidecarData path disk' = some d' ∧ d'.Same d) (fun _ disk' => disk' = disk) disk := by
  refine wp_andThen (wp_wrap (wp_stmt rfl ?_))
  cases hinode : disk.inode path with
  | none => rfl
  | some file =>
    dsimp only
    split_ifs with hempty
    · refine wp_wrap (wp_stmt rfl ⟨{}, ?_, hempty.1.symm, ?_, ?_⟩)
      · simp [sidecarData, hinode]
      · exact (same_empty_iff.mpr hempty.2.1).symm
      · exact (same_empty_iff.mpr hempty.2.2).symm
    · obtain ⟨d', hd', hsame⟩ := unmarshal_marshal d
      refine wp_wrap (wp_stmt rfl ⟨d', ?_, hsame⟩)
      simp [sidecarData, hinode, marshal_ne_empty, hd']

/-! ### Writes -/

/-- What a method that writes has done: it has set the attribute, or changed the row. -/
inductive Wrote (path name val : String) (f : Data → Data) (w : Files) : Files → Prop
  | attr {attrs : StringMap} (h : attributes path w = .ok attrs) :
      Wrote path name val f w
        { w with attrs := Function.update w.attrs path (some (StringMaps.set attrs name val)) }
  | row {d d' : Data} {disk : Disk} (h : attributes path w = .error .notSupported)
      (hd : sidecarData path w.disk = some d) (hd' : sidecarData path disk = some d') (hsame : d'.Same (f d)) :
      Wrote path name val f w { w with disk := disk }

/-- A method that writes does so, or fails and changes nothing. -/
theorem wp_method {name val format readFormat writeFormat : String} {args : List String} {f : Data → Data} :
    wp (do
        ctxErr
        let r ← attempt (set path name val)
        endWrite svc format args (writeFallback path readFormat writeFormat args f) r)
      (fun _ w' => Wrote path name val f w w') (fun _ w' => w' = w) w := by
  refine wp_andThen (wp_stmt rfl (wp_andThen (wp_attempt (wp_stmt (wp_fail rfl) ?_))))
  cases hattrs : attributes path w with
  | ok attrs => exact wp_ret (.attr hattrs)
  | error err =>
    show wp (if _ then _ else _) _ _ w
    split_ifs with hfalls
    · obtain rfl : err = .notSupported := by cases err <;> first | rfl | cases hfalls
      refine wp_andThen (wp_attempt (wp_zoom ?_))
      refine wp_read.mono ?_ ?_
      · rintro d _ ⟨rfl, hd⟩
        refine wp_wrap (wp_zoom ((wp_write (f d)).mono ?_ ?_))
        · rintro - disk ⟨d', hd', hsame⟩
          exact .row hattrs hd hd' hsame
        · rintro - _ rfl
          rfl
      · rintro err _ ⟨rfl, hempty⟩
        by_cases herr : err = .noSidecar
        · subst herr
          refine wp_wrap (wp_zoom ((wp_write (f {})).mono ?_ ?_))
          · rintro - disk ⟨d', hd', hsame⟩
            exact .row hattrs (hempty rfl) hd' hsame
          · rintro - _ rfl
            rfl
        · cases err <;> first | exact wp_fail rfl | exact absurd rfl herr
    · exact wp_fail rfl

theorem attributes_update {attrs attrs' : StringMap} (h : attributes path w = .ok attrs) :
    attributes path { w with attrs := Function.update w.attrs path (some attrs') } = .ok attrs' := by
  unfold attributes at h ⊢
  simp only [Function.update_self]
  split at h
  · cases h
  · split_ifs at h with hsupported
    exact if_pos hsupported

section Wrote
variable {name val : String} {f : Data → Data}

/-- What a write leaves of the tag text: the attribute it sets, or what `f` makes of the row. -/
theorem tagText_wrote (h : Wrote path name val f w w') :
    (∃ attrs, attributes path w = .ok attrs ∧
      tagText path w' = some (((StringMaps.set attrs name val).get? xattrTagKey).getD "")) ∨
    ∃ d, attributes path w = .error .notSupported ∧ sidecarData path w.disk = some d ∧
      tagText path w' = some (f d).tags := by
  cases h with
  | attr hattrs =>
    refine .inl ⟨_, hattrs, ?_⟩
    unfold tagText
    rw [attributes_update hattrs]
  | @row d d' disk hattrs hd hd' hsame =>
    refine .inr ⟨d, hattrs, hd, ?_⟩
    have hattrs' : attributes path { w with disk := disk } = .error .notSupported := hattrs
    unfold tagText
    rw [hattrs']
    simp [hd', hsame.tags]

/-- What a write leaves of the provenance. -/
theorem storedSource_wrote (h : Wrote path name val f w w') :
    (∃ attrs, attributes path w = .ok attrs ∧
      storedSource path w' = parseSource (((StringMaps.set attrs name val).get? xattrSourceKey).getD "")) ∨
    ∃ d m, attributes path w = .error .notSupported ∧ sidecarData path w.disk = some d ∧
      storedSource path w' = some m ∧ StringMaps.Same m (f d).source := by
  cases h with
  | attr hattrs =>
    refine .inl ⟨_, hattrs, ?_⟩
    unfold storedSource
    rw [attributes_update hattrs]
  | @row d d' disk hattrs hd hd' hsame =>
    have hattrs' : attributes path { w with disk := disk } = .error .notSupported := hattrs
    refine .inr ⟨d, d'.source, hattrs, hd, ?_, hsame.source⟩
    unfold storedSource
    rw [hattrs']
    simp [hd']

/-- A write of something else keeps the tags. -/
theorem storedTags_wrote (h : Wrote path name val f w w') (hname : xattrTagKey ≠ name)
    (hf : ∀ d, (f d).tags = d.tags) : storedTags path w' = storedTags path w := by
  unfold storedTags
  congr 1
  obtain ⟨attrs, hattrs, htext⟩ | ⟨d, hattrs, hd, htext⟩ := tagText_wrote h
  · rw [htext, tagText, hattrs, get?_set, if_neg hname]
  · rw [htext, tagText, hattrs, hf]
    simp [hd]

/-- A write of something else keeps the provenance. -/
theorem sameSource_wrote (h : Wrote path name val f w w') (hname : xattrSourceKey ≠ name)
    (hf : ∀ d, (f d).source = d.source) : SameSource path w w' := by
  unfold SameSource
  obtain ⟨attrs, hattrs, hsource⟩ | ⟨d, m, hattrs, hd, hsource, hsame⟩ := storedSource_wrote h
  · have hbefore : storedSource path w = parseSource ((attrs.get? xattrSourceKey).getD "") := by
      rw [storedSource, hattrs]
    rw [hsource, hbefore, get?_set, if_neg hname]
    cases parseSource ((attrs.get? xattrSourceKey).getD "") with
    | none => exact .none
    | some m => exact .some (StringMaps.Same.refl m)
  · have hbefore : storedSource path w = some d.source := by
      rw [storedSource, hattrs]
      simp [hd]
    rw [hsource, hbefore]
    exact .some (hf d ▸ hsame.symm)

end Wrote

/-- `WriteTags` replaces the tags and nothing else, or fails. -/
theorem wp_writeTags (tags : List String) : wp (writeTags svc path tags)
    (fun _ w' => storedTags path w' = some (.ok (stored tags)) ∧ SameSource path w w') (fun _ w' => w' = w) w := by
  refine wp_method.mono (fun _ w' h => ⟨?_, sameSource_wrote h tagKey_ne_source.symm fun _ => rfl⟩) fun _ _ h => h
  unfold storedTags
  obtain ⟨attrs, -, htext⟩ | ⟨d, -, -, htext⟩ := tagText_wrote h
  · rw [htext, get?_set, if_pos rfl, ← parseTags_formatTags]
    rfl
  · rw [htext, ← parseTags_formatTags]
    rfl

/-- `WriteMeta` keeps the tags and the provenance. -/
theorem wp_writeMeta (key value : String) : wp (writeMeta svc path key value)
    (fun _ w' => Untouched path w w') (fun _ w' => w' = w) w :=
  wp_method.mono (fun _ _ h => ⟨storedTags_wrote h (tagKey_ne_meta key) fun _ => rfl,
    sameSource_wrote h (sourceKey_ne_meta key) fun _ => rfl⟩) fun _ _ h => h

/-- `WriteSource` replaces the provenance and nothing else, or fails. -/
theorem wp_writeSource (source : Option StringMap) : wp (writeSource svc path source)
    (fun _ w' => storedTags path w' = storedTags path w ∧
      ∃ m, storedSource path w' = some m ∧ StringMaps.Same m (source.getD empty)) (fun _ w' => w' = w) w := by
  refine wp_method.mono (fun _ w' h => ⟨storedTags_wrote h tagKey_ne_source fun _ => rfl, ?_⟩) fun _ _ h => h
  obtain ⟨attrs, -, hsource⟩ | ⟨d, m, -, -, hsource, hsame⟩ := storedSource_wrote h
  · obtain ⟨hne, m, hm, hsame⟩ := unmarshalMap_marshalSource source
    refine ⟨m.getD empty, ?_, hsame⟩
    rw [hsource, get?_set, if_pos rfl, parseSource, Option.getD_some, if_neg hne, hm]
    rfl
  · exact ⟨m, hsource, hsame⟩

/-! ### Reads -/

/-- What the system call that reads an attribute may give. -/
inductive Got (path name : String) (w : Files) : Except XattrError String → Prop
  | value {attrs : StringMap} {val : String} (h : attributes path w = .ok attrs) (hval : attrs.get? name = some val) :
      Got path name w (.ok val)
  | missing {attrs : StringMap} (h : attributes path w = .ok attrs) (hval : attrs.get? name = none) :
      Got path name w (.error .notExist)
  | notSupported (h : attributes path w = .error .notSupported) : Got path name w (.error .notSupported)
  | errno : Got path name w (.error .errno)

theorem got_get (path name : String) (c : Conn Files) :
    Got path name c.store (get path name c).1 ∧ (get path name c).2 = ⟨c.store, c.faults.tail⟩ := by
  unfold Fallback.get stmt
  dsimp only
  split_ifs
  · exact ⟨.errno, rfl⟩
  · cases hattrs : attributes path c.store with
    | error err =>
      cases err with
      | notSupported => exact ⟨.notSupported hattrs, rfl⟩
      | errno => exact ⟨.errno, rfl⟩
      | notExist =>
        unfold attributes at hattrs
        split at hattrs
        · cases hattrs
        · split_ifs at hattrs
          cases hattrs
    | ok attrs =>
      cases hval : attrs.get? name with
      | some val => simpa [Except.bind, hval] using Got.value hattrs hval
      | none => simpa [Except.bind, hval] using Got.missing hattrs hval

/-- The first two statements of a method that reads. -/
theorem read_run {α : Type} {name : String} {k : Except XattrError String → Act α} :
    (do
        ctxErr
        let r ← attempt (get path name)
        k r : Act α) c =
      if c.faults.headD false then (.error .cancelled, ⟨c.store, c.faults.tail⟩)
      else k (get path name ⟨c.store, c.faults.tail⟩).1 ⟨c.store, c.faults.tail.tail⟩ := by
  show andThen ctxErr _ c = _
  unfold andThen ctxErr stmt
  dsimp only
  split_ifs
  · rfl
  · show k _ (get path name ⟨c.store, c.faults.tail⟩).2 = _
    rw [(got_get path name _).2]

theorem wp_readFallback {α : Type} {format : String} {args : List String} {f : Data → α} {missing : α}
    (hmissing : f {} = missing) : wp (readFallback path format args f missing)
      (fun a w' => w' = w ∧ ∃ d, sidecarData path w.disk = some d ∧ a = f d) (fun _ w' => w' = w) w := by
  refine wp_andThen (wp_attempt (wp_zoom (wp_read.mono ?_ ?_)))
  · rintro d _ ⟨rfl, hd⟩
    exact wp_ret ⟨rfl, d, hd, rfl⟩
  · rintro err _ ⟨rfl, hempty⟩
    by_cases herr : err = .noSidecar
    · subst herr
      exact wp_ret ⟨rfl, {}, hempty rfl, hmissing.symm⟩
    · cases err <;> first | exact wp_fail rfl | exact absurd rfl herr

/-- The tags that a text parses to. -/
theorem parseTagValue_run (path val : String) (c : Conn Files) :
    parseValue [] (parseTagValue path) (.ok val) c = (tagsOf path val, c) := by
  unfold parseValue parseTagValue tagsOf
  dsimp only
  split_ifs
  · rfl
  · cases parseTags val <;> rfl

theorem tagsOf_ok {val : String} {tags : List String} (h : tagsOf path val = .ok tags) : parseTags val = .ok tags := by
  unfold tagsOf at h
  split_ifs at h with hval
  · cases h
    rw [hval]
    rfl
  · cases hparse : parseTags val with
    | ok tags' =>
      rw [hparse] at h
      cases h
      rfl
    | error err =>
      rw [hparse] at h
      cases h

/-- What a method that reads may do, if `good` is the right answer: it changes nothing, a failure gives an error
or no value, and otherwise it gives the right answer. -/
def Reads {α : Type} (svc : Service) (path name : String) (missing : α) (good : α → Prop) (m : Act α)
    (c : Conn Files) : Prop :=
  ∃ r fs, m c = (r, ⟨c.store, fs⟩) ∧
    ((∃ err, r = .error err) ∨ (swallowed svc (get path name ⟨c.store, c.faults.tail⟩).1 ∧ r = .ok missing) ∨
      ¬ swallowed svc (get path name ⟨c.store, c.faults.tail⟩).1 ∧ ∃ a, r = .ok a ∧ good a)

theorem reads_method {α : Type} {name : String} {fallback : Act α} {missing : α} {parse : String → Act α}
    {good : α → Prop}
    (hfallback : attributes path c.store = .error .notSupported →
      wp fallback (fun a w' => w' = c.store ∧ good a) (fun _ w' => w' = c.store) c.store)
    (hmissing : ∀ attrs, attributes path c.store = .ok attrs → (attrs.get? name).getD "" = "" → good missing)
    (hparse : ∀ attrs val c', attributes path c.store = .ok attrs → attrs.get? name = some val → val ≠ "" →
      ∃ r, parse val c' = (r, c') ∧ ∀ a, r = .ok a → good a) :
    Reads svc path name missing good (do
      ctxErr
      let r ← attempt (get path name)
      if fallsBack svc r then fallback else parseValue missing parse r) c := by
  unfold Reads
  rw [read_run]
  by_cases hfault : c.faults.headD false = true
  · rw [if_pos hfault]
    exact ⟨_, _, rfl, .inl ⟨_, rfl⟩⟩
  rw [if_neg hfault]
  have hgot := (got_get path name ⟨c.store, c.faults.tail⟩).1
  generalize (get path name ⟨c.store, c.faults.tail⟩).1 = r at hgot ⊢
  cases hgot with
  | @value attrs val hattrs hval =>
    show ∃ r fs, (if val = "" then pure missing else parse val : Act α) _ = _ ∧ _
    split_ifs with hempty
    · exact ⟨_, _, rfl, .inr (.inr ⟨nofun, _, rfl, hmissing attrs hattrs (by rw [hval, hempty]; rfl)⟩)⟩
    · obtain ⟨r, hr, hgood⟩ := hparse attrs val ⟨c.store, c.faults.tail.tail⟩ hattrs hval hempty
      refine ⟨r, _, hr, ?_⟩
      cases r with
      | error err => exact .inl ⟨err, rfl⟩
      | ok a => exact .inr (.inr ⟨nofun, a, rfl, hgood a rfl⟩)
  | @missing attrs hattrs hval =>
    exact ⟨_, _, rfl, .inr (.inr ⟨nofun, _, rfl, hmissing attrs hattrs (by rw [hval]; rfl)⟩)⟩
  | notSupported hattrs =>
    show ∃ r fs, (if svc.sidecarStore then fallback else pure missing : Act α) _ = _ ∧ _
    by_cases hstore : svc.sidecarStore = true
    · rw [if_pos hstore]
      rcases hrun : fallback ⟨c.store, c.faults.tail.tail⟩ with ⟨a | err, ⟨w', fs⟩⟩
      · obtain rfl : w' = c.store := (hfallback hattrs).error hrun
        exact ⟨_, fs, rfl, .inl ⟨_, rfl⟩⟩
      · obtain ⟨rfl, hgood⟩ := (hfallback hattrs).ok hrun
        exact ⟨_, fs, rfl, .inr (.inr ⟨by simp [swallowed, hstore], _, rfl, hgood⟩)⟩
    · rw [if_neg hstore]
      exact ⟨_, _, rfl, .inr (.inl ⟨by simp [swallowed, hstore], rfl⟩)⟩
  | errno => exact ⟨_, _, rfl, .inr (.inl ⟨rfl, rfl⟩)⟩

theorem reads_readTags (svc : Service) (path : String) (c : Conn Files) :
    Reads svc path xattrTagKey [] (fun tags => storedTags path c.store = some (.ok tags)) (readTags svc path) c := by
  refine reads_method (fun hattrs => ?_) (fun attrs hattrs hval => ?_) fun attrs val c' hattrs hval hne => ?_
  · refine wp_andThen ((wp_readFallback (f := Data.tags) rfl).mono ?_ fun _ _ h => h)
    rintro val _ ⟨rfl, d, hd, rfl⟩ fs
    rw [parseTagValue_run path]
    cases htags : tagsOf path d.tags with
    | error err => rfl
    | ok tags =>
      refine ⟨rfl, ?_⟩
      rw [storedTags, tagText, hattrs]
      simp [hd, tagsOf_ok htags]
  · rw [storedTags, tagText, hattrs]
    show some (parseTags ((attrs.get? xattrTagKey).getD "")) = _
    rw [hval]
    rfl
  · refine ⟨tagsOf path val, ?_, fun tags htags => ?_⟩
    · have hrun := parseTagValue_run path val c'
      rwa [parseValue, if_neg hne] at hrun
    · rw [storedTags, tagText, hattrs]
      show some (parseTags ((attrs.get? xattrTagKey).getD "")) = _
      rw [hval, Option.getD_some, tagsOf_ok htags]

theorem reads_readSource (svc : Service) (path : String) (c : Conn Files) :
    Reads svc path xattrSourceKey (some empty) (fun m => ∃ m', storedSource path c.store = some m' ∧
      StringMaps.Same m' (m.getD empty)) (readSource svc path) c := by
  refine reads_method (fun hattrs => ?_) (fun attrs hattrs hval => ?_) fun attrs val c' hattrs hval hne => ?_
  · refine (wp_readFallback (f := fun sc => some sc.source) rfl).mono ?_ fun _ _ h => h
    rintro m _ ⟨rfl, d, hd, rfl⟩
    refine ⟨rfl, d.source, ?_, StringMaps.Same.refl _⟩
    rw [storedSource, hattrs]
    simp [hd]
  · refine ⟨empty, ?_, StringMaps.Same.refl _⟩
    rw [storedSource, hattrs]
    show parseSource ((attrs.get? xattrSourceKey).getD "") = _
    rw [hval]
    rfl
  · unfold parseSourceValue
    cases hm : unmarshalMap val with
    | none => exact ⟨_, rfl, nofun⟩
    | some m =>
      refine ⟨.ok m, rfl, fun a ha => ?_⟩
      cases ha
      refine ⟨m.getD empty, ?_, StringMaps.Same.refl _⟩
      rw [storedSource, hattrs]
      show parseSource ((attrs.get? xattrSourceKey).getD "") = _
      rw [hval, Option.getD_some, parseSource, if_neg hne, hm]
      rfl

/-- A failed `ReadTags` gives an error or no tags. -/
theorem readTags_unreadable (h : TagsUnreadable svc path c) :
    ∃ r fs, readTags svc path c = (r, ⟨c.store, fs⟩) ∧ (r = .ok [] ∨ ∃ err, r = .error err) := by
  obtain ⟨r, fs, hrun, herr | ⟨-, hr⟩ | ⟨hread, tags, rfl, -⟩⟩ := reads_readTags svc path c
  · exact ⟨r, fs, hrun, .inr herr⟩
  · exact ⟨r, fs, hrun, .inl hr⟩
  · obtain ⟨err, herr⟩ | hlost := h
    · rw [hrun] at herr
      cases herr
    · exact absurd hlost hread

/-- `ReadTags` gives the tags unless it fails. -/
theorem readTags_readable (h : ¬ TagsUnreadable svc path c) :
    ∃ tags fs, readTags svc path c = (.ok tags, ⟨c.store, fs⟩) ∧ storedTags path c.store = some (.ok tags) := by
  obtain ⟨r, fs, hrun, ⟨err, rfl⟩ | ⟨hlost, -⟩ | ⟨-, tags, rfl, htags⟩⟩ := reads_readTags svc path c
  · exact absurd (.inl ⟨err, by rw [hrun]⟩) h
  · exact absurd (.inr hlost) h
  · exact ⟨tags, fs, hrun, htags⟩

/-- A failed `ReadSource` gives an error or the empty map. -/
theorem readSource_unreadable (h : SourceUnreadable svc path c) :
    ∃ r fs, readSource svc path c = (r, ⟨c.store, fs⟩) ∧ (r = .ok (some empty) ∨ ∃ err, r = .error err) := by
  obtain ⟨r, fs, hrun, herr | ⟨-, hr⟩ | ⟨hread, m, rfl, -⟩⟩ := reads_readSource svc path c
  · exact ⟨r, fs, hrun, .inr herr⟩
  · exact ⟨r, fs, hrun, .inl hr⟩
  · obtain ⟨err, herr⟩ | hlost := h
    · rw [hrun] at herr
      cases herr
    · exact absurd hlost hread

/-- The reading of one attribute changes nothing. -/
theorem keeps_get (name : String) : Keeps (· = w) (get path name) := by
  rintro w' rfl fs
  obtain ⟨-, hrun⟩ := got_get path name ⟨w', fs⟩
  rcases hget : get path name ⟨w', fs⟩ with ⟨a | e, c⟩ <;> rw [hget] at hrun <;> exact congrArg Conn.store hrun

theorem keeps_collectMeta (l : List String) (m : StringMap) : Keeps (· = w) (collectMeta path l m) := by
  induction l generalizing m with
  | nil => exact Keeps.ret
  | cons attr rest ih =>
    unfold collectMeta
    split_ifs
    · exact Keeps.andThen (Keeps.wrap (keeps_get attr)) fun val => ih _
    · exact ih m

theorem keeps_readAllMeta : Keeps (· = w) (readAllMeta svc path) := by
  refine Keeps.andThen (Keeps.stmt fun s a s' hs h => ?_) fun _ => ?_
  · cases h
    exact hs
  refine Keeps.andThen (Keeps.attempt (Keeps.stmt fun s a s' hs h => ?_)) fun r => ?_
  · unfold Except.map at h
    split at h <;> cases h
    exact hs
  split_ifs
  · rintro w' rfl
    exact (wp_readFallback (f := Data.metadata) rfl).mono (fun _ _ h => h.1) fun _ _ h => h
  · cases r with
    | error err => exact Keeps.fail
    | ok attrs => exact keeps_collectMeta attrs empty

end Tilbo.Sidecar.Stored
