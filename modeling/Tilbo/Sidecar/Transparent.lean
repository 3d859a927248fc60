import Tilbo.Sidecar.Fallback
import Tilbo.Lib.Txn

/-! # The sidecar is transparent

The service answers every sequence of calls about one file in the same way, whether the file system keeps the
attributes of the file or the sidecar store does (`answers_same`). -/

namespace Tilbo.Sidecar.Transparent

open Tilbo.Lib Tilbo.Lib.Json Tilbo.Lib.Strings Tilbo.Lib.StringMaps Tilbo.Lib.Txn Tilbo.Lib.Txn.Prog
open Tilbo.Sidecar.Store Tilbo.Sidecar.Fallback Tilbo.Xattr.Csv

/-! ### Calls -/

/-- A call about the file. -/
inductive Request where
  | readTags
  | writeTags (tags : List String)
  | readMeta (key : String)
  | writeMeta (key value : String)
  | readAllMeta
  | readSource
  | writeSource (source : Option StringMap)

inductive Answer where
  | done
  | tags (tags : List String)
  | value (val : String)
  | map (m : Option StringMap)

def Request.run (svc : Service) (path : String) : Request → Act Answer
  | readTags => do return .tags (← Fallback.readTags svc path)
  | writeTags tags => do
    Fallback.writeTags svc path tags
    return .done
  | readMeta key => do return .value (← Fallback.readMeta svc path key)
  | writeMeta key value => do
    Fallback.writeMeta svc path key value
    return .done
  | readAllMeta => do return .map (some (← Fallback.readAllMeta svc path))
  | readSource => do return .map (← Fallback.readSource svc path)
  | writeSource source => do
    Fallback.writeSource svc path source
    return .done

/-- The answers to a sequence of calls, none of which is disturbed. -/
def answers (svc : Service) (path : String) : List Request → Files → List (Except Fallback.Error Answer)
  | [], _ => []
  | r :: rs, w => (r.run svc path ⟨w, []⟩).1 :: answers svc path rs (r.run svc path ⟨w, []⟩).2.store

/-- The same answer: maps are compared by their values, and a nil map is an empty one. -/
inductive Same : Except Fallback.Error Answer → Except Fallback.Error Answer → Prop
  | refl (r : Except Fallback.Error Answer) : Same r r
  | map {m m' : Option StringMap} (h : StringMaps.Same (m.getD empty) (m'.getD empty)) :
      Same (.ok (.map m)) (.ok (.map m'))

/-! ### The two ways to keep what belongs to a file -/

/-- The attributes hold the content. -/
structure Holds (attrs : StringMap) (d : Data) : Prop where
  tags : (attrs.get? xattrTagKey).getD "" = d.tags
  metadata : ∀ k, attrs.get? (xattrMetaPrefix ++ k) = d.metadata.get? k
  source : (attrs.get? xattrSourceKey = none ∧ StringMaps.Same d.source empty) ∨
    ∃ val m, attrs.get? xattrSourceKey = some val ∧ val ≠ "" ∧ unmarshalMap val = some m ∧
      StringMaps.Same (m.getD empty) d.source

/-- The row of the file holds the content; there is none for nothing. -/
def HoldsRow (disk : Disk) (file : UInt64 × UInt64) (d : Data) : Prop :=
  (disk.sidecar (rowKey file) = none ∧ Data.Same {} d) ∨
    ∃ text d', disk.sidecar (rowKey file) = some text ∧ text ≠ "" ∧ unmarshal text = some d' ∧ d'.Same d

/-- The file system keeps the attributes of the file, and they hold the content. -/
structure Native (path : String) (d : Data) (w : Files) : Prop where
  supported : w.supported path = true
  attrs : ∃ attrs, w.attrs path = some attrs ∧ Holds attrs d

/-- The file system knows no attributes, and the row of the file holds the content. -/
structure Fallen (path : String) (file : UInt64 × UInt64) (d : Data) (w : Files) : Prop where
  supported : w.supported path = false
  attrs : (w.attrs path).isSome
  inode : w.disk.inode path = some file
  row : HoldsRow w.disk file d

variable {svc : Service} {path : String} {file : UInt64 × UInt64} {w w' : Files} {d d' d'' : Data} {disk : Disk}
  {attrs : StringMap}

theorem sameData_trans (h : d.Same d') (h' : d'.Same d'') : d.Same d'' :=
  ⟨h.tags.trans h'.tags, h.metadata.trans h'.metadata, h.source.trans h'.source⟩

/-! ### The row -/

theorem runs_read (hinode : disk.inode path = some file) (hrow : HoldsRow disk file d) :
    (Runs (Store.read path) disk (.error .noSidecar) disk ∧ Data.Same {} d) ∨
      ∃ d', Runs (Store.read path) disk (.ok d') disk ∧ d'.Same d := by
  have hstat : Runs (getInodeDev path) disk (.ok file) disk := Runs.stmt (by rw [hinode])
  have htext : ∀ text, (disk.sidecar (rowKey file)).getD "" = text →
      Runs (wrap (Store.Error.wrapped "read sidecar from db: %w") (readSidecar file)) disk (.ok text) disk :=
    fun text h => Runs.wrap (Runs.stmt (by rw [h]))
  obtain ⟨hnone, hempty⟩ | ⟨text, d', htable, hne, hd', hsame⟩ := hrow
  · refine .inl ⟨Runs.andThen hstat.attempt (Runs.andThen (htext "" (by rw [hnone]; rfl)) ?_), hempty⟩
    exact Runs.fail
  · refine .inr ⟨d', Runs.andThen hstat.attempt (Runs.andThen (htext text (by rw [htable]; rfl)) ?_), hsame⟩
    unfold decode
    rw [if_neg hne, hd']
    exact Runs.ret

theorem marshal_ne_empty (d : Data) : d.marshal ≠ "" := fun h => by
  have hlist := congrArg String.toList h
  rw [Data.marshal, String.toList_ofList] at hlist
  cases hlist

theorem runs_write (hinode : disk.inode path = some file) (d : Data) :
    ∃ disk', Runs (Store.write path d) disk (.ok ()) disk' ∧ disk'.inode = disk.inode ∧ HoldsRow disk' file d := by
  have hstat : Runs (wrap (Store.Error.wrapped "stat file: %w") (getInodeDev path)) disk (.ok file) disk :=
    Runs.wrap (Runs.stmt (by rw [hinode]))
  by_cases hempty : d.tags = "" ∧ d.metadata.pairs = [] ∧ d.source.pairs = []
  · have hdelete : Runs (wrap (Store.Error.wrapped "remove sidecar from db: %w") (deleteSidecar file)) disk (.ok ())
        { disk with sidecar := Function.update disk.sidecar (rowKey file) none } := Runs.wrap (Runs.stmt rfl)
    refine ⟨{ disk with sidecar := Function.update disk.sidecar (rowKey file) none },
      Runs.andThen hstat (by rwa [if_pos hempty]), rfl, .inl ⟨Function.update_self .., ?_⟩⟩
    exact ⟨hempty.1.symm, (same_empty_iff.mpr hempty.2.1).symm, (same_empty_iff.mpr hempty.2.2).symm⟩
  · obtain ⟨d', hd', hsame⟩ := unmarshal_marshal d
    have hwrite : Runs (wrap (Store.Error.wrapped "write sidecar to db: %w") (writeSidecar file d.marshal)) disk
        (.ok ()) { disk with sidecar := Function.update disk.sidecar (rowKey file) (some d.marshal) } :=
      Runs.wrap (Runs.stmt rfl)
    refine ⟨{ disk with sidecar := Function.update disk.sidecar (rowKey file) (some d.marshal) },
      Runs.andThen hstat (by rwa [if_neg hempty]), rfl, .inr ⟨d.marshal, d', Function.update_self .., ?_⟩⟩
    exact ⟨marshal_ne_empty d, hd', hsame⟩

/-- What a method that reads finds in the sidecar. -/
theorem runs_readFallback {α : Type} (hw : Fallen path file d w) (format : String) (args : List String)
    (f : Data → α) {missing : α} (hmissing : f {} = missing) :
    ∃ d', d'.Same d ∧ Runs (readFallback path format args f missing) w (.ok (f d')) w := by
  obtain ⟨hread, hempty⟩ | ⟨d', hread, hsame⟩ := runs_read hw.inode hw.row
  · refine ⟨{}, hempty, Runs.andThen (hread.zoom.attempt) ?_⟩
    rw [hmissing]
    exact Runs.ret
  · exact ⟨d', hsame, Runs.andThen (hread.zoom.attempt) Runs.ret⟩

/-- What a method that writes leaves in the sidecar. -/
theorem runs_writeFallback (hw : Fallen path file d w) (readFormat writeFormat : String) (args : List String)
    (f : Data → Data) :
    ∃ d' w', d'.Same d ∧ Runs (writeFallback path readFormat writeFormat args f) w (.ok ()) w' ∧
      Fallen path file (f d') w' := by
  obtain ⟨hread, hempty⟩ | ⟨d', hread, hsame⟩ := runs_read hw.inode hw.row
  · obtain ⟨disk', hwrite, hinode, hrow⟩ := runs_write hw.inode (f {})
    refine ⟨{}, { w with disk := disk' }, hempty, Runs.andThen (hread.zoom.attempt) (Runs.wrap hwrite.zoom), ?_⟩
    exact ⟨hw.supported, hw.attrs, hinode ▸ hw.inode, hrow⟩
  · obtain ⟨disk', hwrite, hinode, hrow⟩ := runs_write hw.inode (f d')
    refine ⟨d', { w with disk := disk' }, hsame, Runs.andThen (hread.zoom.attempt) (Runs.wrap hwrite.zoom), ?_⟩
    exact ⟨hw.supported, hw.attrs, hinode ▸ hw.inode, hrow⟩

/-! ### Attributes -/

theorem attributes_native (hw : Native path d w) :
    ∃ attrs, attributes path w = .ok attrs ∧ w.attrs path = some attrs ∧ Holds attrs d := by
  obtain ⟨attrs, hattrs, hholds⟩ := hw.attrs
  refine ⟨attrs, ?_, hattrs, hholds⟩
  simp [attributes, hattrs, hw.supported]

theorem attributes_fallen (hw : Fallen path file d w) : attributes path w = .error .notSupported := by
  obtain ⟨attrs, hattrs⟩ := Option.isSome_iff_exists.mp hw.attrs
  simp [attributes, hattrs, hw.supported]

theorem runs_get (h : attributes path w = .ok attrs) (name : String) :
    Runs (get path name) w ((attrs.get? name).elim (.error .notExist) .ok) w := by
  cases hname : attrs.get? name with
  | some val => exact Runs.stmt (by simp [h, hname, Except.bind])
  | none => exact Runs.stmt_error (by simp [h, hname, Except.bind])

theorem runs_set (h : attributes path w = .ok attrs) (name val : String) :
    Runs (set path name val) w (.ok ())
      { w with attrs := Function.update w.attrs path (some (StringMaps.set attrs name val)) } :=
  Runs.stmt (by simp [h, Except.map])

theorem runs_list (h : attributes path w = .ok attrs) : Runs (list path) w (.ok (attrs.pairs.map Prod.fst)) w :=
  Runs.stmt (by simp [h, Except.map])

theorem get_fallen (hw : Fallen path file d w) (name : String) : Runs (get path name) w (.error .notSupported) w :=
  Runs.stmt_error (by simp [attributes_fallen hw, Except.bind])

theorem set_fallen (hw : Fallen path file d w) (name val : String) :
    Runs (set path name val) w (.error .notSupported) w :=
  Runs.stmt_error (by simp [attributes_fallen hw, Except.map])

theorem list_fallen (hw : Fallen path file d w) : Runs (list path) w (.error .notSupported) w :=
  Runs.stmt_error (by simp [attributes_fallen hw, Except.map])

theorem runs_ctxErr : Runs ctxErr w (.ok ()) w := Runs.stmt rfl

/-- A new value of an attribute. -/
theorem native_set (hw : Native path d w) {name val : String}
    (hholds : Holds (StringMaps.set attrs name val) d') :
    Native path d' { w with attrs := Function.update w.attrs path (some (StringMaps.set attrs name val)) } :=
  ⟨hw.supported, _, Function.update_self .., hholds⟩

theorem toList_ne {a b : String} (h : a.toList ≠ b.toList) : a ≠ b := fun hab => h (congrArg _ hab)

theorem tagKey_ne_meta (k : String) : xattrTagKey ≠ xattrMetaPrefix ++ k :=
  toList_ne (by simp [xattrTagKey, xattrMetaPrefix])

theorem sourceKey_ne_meta (k : String) : xattrSourceKey ≠ xattrMetaPrefix ++ k :=
  toList_ne (by simp [xattrSourceKey, xattrMetaPrefix])

theorem tagKey_ne_source : xattrTagKey ≠ xattrSourceKey := by decide

theorem meta_inj {k k' : String} (h : xattrMetaPrefix ++ k = xattrMetaPrefix ++ k') : k = k' := by
  have hlist := congrArg String.toList h
  rw [String.toList_append, String.toList_append] at hlist
  exact String.toList_inj.mp (List.append_cancel_left hlist)

theorem holds_setTags (h : Holds attrs d) (val : String) :
    Holds (StringMaps.set attrs xattrTagKey val) { d with tags := val } := by
  obtain ⟨-, hmeta, hsource⟩ := h
  refine ⟨by simp, fun k => ?_, ?_⟩
  · rw [get?_set, if_neg (tagKey_ne_meta k).symm]
    exact hmeta k
  · simpa only [get?_set, if_neg tagKey_ne_source.symm] using hsource

theorem holds_setMeta (h : Holds attrs d) (key val : String) :
    Holds (StringMaps.set attrs (xattrMetaPrefix ++ key) val)
      { d with metadata := StringMaps.set d.metadata key val } := by
  obtain ⟨htags, hmeta, hsource⟩ := h
  refine ⟨?_, fun k => ?_, ?_⟩
  · rw [get?_set, if_neg (tagKey_ne_meta key)]
    exact htags
  · rw [get?_set, get?_set]
    by_cases hk : k = key
    · rw [if_pos (by rw [hk]), if_pos hk]
    · rw [if_neg (fun h => hk (meta_inj h)), if_neg hk]
      exact hmeta k
  · simpa only [get?_set, if_neg (sourceKey_ne_meta key)] using hsource

theorem unmarshalMap_marshalSource (m : Option StringMap) :
    marshalSource m ≠ "" ∧ ∃ m', unmarshalMap (marshalSource m) = some m' ∧
      StringMaps.Same (m'.getD empty) (m.getD empty) := by
  cases m with
  | none => exact ⟨by decide, none, rfl, StringMaps.Same.refl _⟩
  | some m =>
    obtain ⟨m', hm', hsame⟩ := unmarshalMembers_members m
    refine ⟨fun h => ?_, some m', ?_, hsame⟩
    · have hlist := congrArg String.toList h
      rw [marshalSource, String.toList_ofList] at hlist
      cases hlist
    · rw [unmarshalMap, marshalSource, (reads_marshalMap m).parse]
      simp [hm']

theorem holds_setSource (h : Holds attrs d) (m : Option StringMap) :
    Holds (StringMaps.set attrs xattrSourceKey (marshalSource m)) { d with source := m.getD empty } := by
  obtain ⟨htags, hmeta, -⟩ := h
  obtain ⟨hne, m', hm', hsame⟩ := unmarshalMap_marshalSource m
  refine ⟨?_, fun k => ?_, .inr ⟨_, m', by simp, hne, hm', hsame⟩⟩
  · rw [get?_set, if_neg tagKey_ne_source]
    exact htags
  · rw [get?_set, if_neg (sourceKey_ne_meta k).symm]
    exact hmeta k

/-- The loop of `ReadAllMeta` collects the attributes whose names have the prefix. -/
theorem runs_collectMeta (h : attributes path w = .ok attrs) :
    ∀ (l : List String) (m : StringMap), (∀ name ∈ l, (attrs.get? name).isSome) →
      ∃ m', Runs (collectMeta path l m) w (.ok m') w ∧ ∀ k, m'.get? k =
        if xattrMetaPrefix ++ k ∈ l then attrs.get? (xattrMetaPrefix ++ k) else m.get? k
  | [], m, _ => ⟨m, Runs.ret, fun k => by simp⟩
  | attr :: rest, m, hl => by
    unfold collectMeta
    split_ifs with hprefix
    · obtain ⟨tail, htail⟩ := hprefix
      obtain ⟨val, hval⟩ := Option.isSome_iff_exists.mp (hl attr List.mem_cons_self)
      have hkey : attr = xattrMetaPrefix ++ String.ofList (attr.toList.drop xattrMetaPrefix.length) := by
        rw [← String.toList_inj, ← htail]
        simp [String.length]
      obtain ⟨m', hm', hget⟩ := runs_collectMeta h rest
        (StringMaps.set m (String.ofList (attr.toList.drop xattrMetaPrefix.length)) val)
        fun name hname => hl name (List.mem_cons_of_mem _ hname)
      have hends := runs_get h attr
      rw [hval] at hends
      refine ⟨m', Runs.andThen (Runs.wrap hends) hm', fun k => ?_⟩
      rw [hget k, get?_set]
      by_cases hrest : xattrMetaPrefix ++ k ∈ rest
      · rw [if_pos hrest, if_pos (List.mem_cons_of_mem _ hrest)]
      · rw [if_neg hrest]
        by_cases hk : k = String.ofList (attr.toList.drop xattrMetaPrefix.length)
        · rw [if_pos hk, hk, ← hkey, if_pos List.mem_cons_self, hval]
        · have hne : xattrMetaPrefix ++ k ≠ attr := fun heq => hk (meta_inj (heq.trans hkey))
          rw [if_neg hk, if_neg (by simp [hne, hrest])]
    · obtain ⟨m', hm', hget⟩ := runs_collectMeta h rest m fun name hname => hl name (List.mem_cons_of_mem _ hname)
      refine ⟨m', hm', fun k => ?_⟩
      have hne : xattrMetaPrefix ++ k ≠ attr := fun heq =>
        hprefix (by rw [← heq, String.toList_append]; exact List.prefix_append _ _)
      rw [hget k]
      simp [hne]

/-! ### One call -/

theorem Holds.congr (h : Holds attrs d) (hsame : d.Same d') : Holds attrs d' where
  tags := h.tags.trans hsame.tags
  metadata k := (h.metadata k).trans (hsame.metadata k)
  source := h.source.imp (fun ⟨hnone, hempty⟩ => ⟨hnone, hsame.source.symm.trans hempty⟩)
    fun ⟨val, m, hval, hne, hm, hs⟩ => ⟨val, m, hval, hne, hm, hs.trans hsame.source⟩

theorem Native.congr (h : Native path d w) (hsame : d.Same d') : Native path d' w :=
  ⟨h.supported, h.attrs.imp fun _ ⟨hattrs, hholds⟩ => ⟨hattrs, hholds.congr hsame⟩⟩

theorem HoldsRow.congr (h : HoldsRow disk file d) (hsame : d.Same d') : HoldsRow disk file d' :=
  h.imp (fun ⟨hnone, hempty⟩ => ⟨hnone, sameData_trans hempty hsame⟩)
    fun ⟨text, d'', htext, hne, hd'', hs⟩ => ⟨text, d'', htext, hne, hd'', sameData_trans hs hsame⟩

/-- Both services end the call with the same answer, and hold the same content afterwards. -/
def Alike (svc : Service) (path : String) (file : UInt64 × UInt64) (r : Request) (w w' : Files) : Prop :=
  ∃ a a' w₁ w₁' d, Runs (r.run svc path) w a w₁ ∧ Runs (r.run ⟨true⟩ path) w' a' w₁' ∧ Same a a' ∧
    Native path d w₁ ∧ Fallen path file d w₁'

/-- What the tags attribute reads as. -/
def tagsOf (path val : String) : Except Fallback.Error (List String) :=
  if val = "" then .ok []
  else
    match parseTags val with
    | .ok tags => .ok tags
    | .error err => .error (.wrapped "xattr parse tags %q: %w" [path] (.csv err))

theorem runs_parseTagValue (val : String) :
    Runs (parseValue [] (parseTagValue path) (.ok val)) w (tagsOf path val) w := by
  unfold parseValue parseTagValue tagsOf
  dsimp only
  split_ifs
  · exact Runs.ret
  · cases parseTags val with
    | ok tags => exact Runs.ret
    | error err => exact Runs.fail

theorem alike_readTags (hw : Native path d w) (hw' : Fallen path file d w') :
    Alike svc path file .readTags w w' := by
  obtain ⟨attrs, hattrs, -, hholds⟩ := attributes_native hw
  have hget := runs_get hattrs xattrTagKey
  have hnative : Runs (readTags svc path) w (tagsOf path d.tags) w := by
    refine Runs.andThen runs_ctxErr (Runs.andThen hget.attempt ?_)
    have htags := hholds.tags
    cases hval : attrs.get? xattrTagKey with
    | none =>
      rw [hval] at htags
      rw [← htags]
      exact runs_parseTagValue ""
    | some val =>
      rw [hval] at htags
      rw [← htags]
      exact runs_parseTagValue val
  have hfallen : Runs (readTags ⟨true⟩ path) w' (tagsOf path d.tags) w' := by
    obtain ⟨d', hsame, hread⟩ := runs_readFallback hw' "sidecar read tags %q: %w" [path] Data.tags rfl
    refine Runs.andThen runs_ctxErr (Runs.andThen (get_fallen hw' _).attempt ?_)
    refine Runs.andThen hread ?_
    rw [hsame.tags]
    exact runs_parseTagValue d.tags
  exact ⟨_, _, w, w', d, hnative.map, hfallen.map, .refl _, hw, hw'⟩

/-- A method that writes: the attribute on one side, the sidecar on the other. -/
theorem alike_write (hw : Native path d w) (hw' : Fallen path file d w') {r : Request} {name val : String}
    {f : Data → Data} {format readFormat writeFormat : String} {args : List String}
    (hrun : ∀ svc, r.run svc path = (do
      ctxErr
      let x ← attempt (set path name val)
      endWrite svc format args (writeFallback path readFormat writeFormat args f) x) >>= fun _ => pure .done)
    (hf : ∀ d', d'.Same d → (f d).Same (f d'))
    (hholds : ∀ {attrs}, Holds attrs d → Holds (StringMaps.set attrs name val) (f d)) :
    Alike svc path file r w w' := by
  obtain ⟨attrs, hattrs, -, h⟩ := attributes_native hw
  obtain ⟨d', w₁', hsame, hwrite, hfallen⟩ := runs_writeFallback hw' readFormat writeFormat args f
  have hnative := native_set hw (hholds h)
  refine ⟨.ok .done, .ok .done, _, w₁', f d', ?_, ?_, .refl _, hnative.congr (hf d' hsame), hfallen⟩
  · rw [hrun]
    refine Runs.andThen (a := ()) ?_ Runs.ret
    exact Runs.andThen runs_ctxErr (Runs.andThen (runs_set hattrs name val).attempt Runs.ret)
  · rw [hrun]
    refine Runs.andThen (a := ()) ?_ Runs.ret
    exact Runs.andThen runs_ctxErr (Runs.andThen (set_fallen hw' name val).attempt hwrite)

theorem alike_readMeta (hw : Native path d w) (hw' : Fallen path file d w') (key : String) :
    Alike svc path file (.readMeta key) w w' := by
  obtain ⟨attrs, hattrs, -, hholds⟩ := attributes_native hw
  have hget := runs_get hattrs (xattrMetaPrefix ++ key)
  have hnative : Runs (readMeta svc path key) w (.ok ((d.metadata.get? key).getD "")) w := by
    rw [hholds.metadata key] at hget
    refine Runs.andThen runs_ctxErr (Runs.andThen hget.attempt ?_)
    cases d.metadata.get? key <;> exact Runs.ret
  have hfallen : Runs (readMeta ⟨true⟩ path key) w' (.ok ((d.metadata.get? key).getD "")) w' := by
    obtain ⟨d', hsame, hread⟩ := runs_readFallback hw' "sidecar read meta %q key %q: %w" [path, key]
      (fun sc => (sc.metadata.get? key).getD "") rfl
    rw [← hsame.metadata key]
    exact Runs.andThen runs_ctxErr (Runs.andThen (get_fallen hw' _).attempt hread)
  exact ⟨_, _, w, w', d, hnative.map, hfallen.map, .refl _, hw, hw'⟩

theorem alike_readAllMeta (hw : Native path d w) (hw' : Fallen path file d w') :
    Alike svc path file .readAllMeta w w' := by
  obtain ⟨attrs, hattrs, -, hholds⟩ := attributes_native hw
  have hkeys : ∀ name, name ∈ attrs.pairs.map Prod.fst ↔ (attrs.get? name).isSome := fun name => by
    rw [Option.isSome_iff_exists]
    simp [StringMap.get?_eq_some]
  obtain ⟨m, hm, hget⟩ := runs_collectMeta hattrs (attrs.pairs.map Prod.fst) empty fun name hname =>
    (hkeys name).mp hname
  have hnative : Runs (readAllMeta svc path) w (.ok m) w :=
    Runs.andThen runs_ctxErr (Runs.andThen (runs_list hattrs).attempt hm)
  have hmSame : StringMaps.Same m d.metadata := fun k => by
    rw [hget k, ← hholds.metadata k]
    split_ifs with hk
    · rfl
    · rw [hkeys, Option.not_isSome_iff_eq_none] at hk
      rw [hk, get?_empty]
  obtain ⟨d', hsame, hread⟩ := runs_readFallback hw' "sidecar list meta %q: %w" [path] Data.metadata rfl
  have hfallen : Runs (readAllMeta ⟨true⟩ path) w' (.ok d'.metadata) w' :=
    Runs.andThen runs_ctxErr (Runs.andThen (list_fallen hw').attempt hread)
  exact ⟨_, _, w, w', d, hnative.map, hfallen.map, .map (hmSame.trans hsame.metadata.symm), hw, hw'⟩

theorem alike_readSource (hw : Native path d w) (hw' : Fallen path file d w') :
    Alike svc path file .readSource w w' := by
  obtain ⟨attrs, hattrs, -, hholds⟩ := attributes_native hw
  have hget := runs_get hattrs xattrSourceKey
  have hnative : ∃ m, Runs (readSource svc path) w (.ok m) w ∧ StringMaps.Same (m.getD empty) d.source := by
    obtain ⟨hnone, hempty⟩ | ⟨val, m, hval, hne, hm, hsame⟩ := hholds.source
    · rw [hnone] at hget
      exact ⟨some empty, Runs.andThen runs_ctxErr (Runs.andThen hget.attempt Runs.ret), hempty.symm⟩
    · rw [hval] at hget
      refine ⟨m, Runs.andThen runs_ctxErr (Runs.andThen hget.attempt ?_), hsame⟩
      show Runs (if val = "" then _ else parseSourceValue path val) w (.ok m) w
      rw [if_neg hne, parseSourceValue, hm]
      exact Runs.ret
  obtain ⟨m, hnative, hmSame⟩ := hnative
  obtain ⟨d', hsame, hread⟩ := runs_readFallback hw' "sidecar read source %q: %w" [path]
    (fun sc => some sc.source) rfl
  have hfallen : Runs (readSource ⟨true⟩ path) w' (.ok (some d'.source)) w' :=
    Runs.andThen runs_ctxErr (Runs.andThen (get_fallen hw' _).attempt hread)
  exact ⟨_, _, w, w', d, hnative.map, hfallen.map, .map (hmSame.trans hsame.source.symm), hw, hw'⟩

theorem alike (hw : Native path d w) (hw' : Fallen path file d w') (r : Request) :
    Alike svc path file r w w' := by
  cases r with
  | readTags => exact alike_readTags hw hw'
  | writeTags tags =>
    refine alike_write hw hw' (f := fun sc => { sc with tags := formatTags tags }) (fun _ => rfl) ?_
      fun h => holds_setTags h _
    exact fun d' hsame => ⟨rfl, hsame.metadata.symm, hsame.source.symm⟩
  | readMeta key => exact alike_readMeta hw hw' key
  | writeMeta key value =>
    refine alike_write hw hw' (f := fun sc => { sc with metadata := StringMaps.set sc.metadata key value })
      (fun svc => rfl) ?_ fun h => holds_setMeta h _ _
    exact fun d' hsame => ⟨hsame.tags.symm, hsame.metadata.symm.set key value, hsame.source.symm⟩
  | readAllMeta => exact alike_readAllMeta hw hw'
  | readSource => exact alike_readSource hw hw'
  | writeSource source =>
    refine alike_write hw hw' (f := fun sc => { sc with source := source.getD empty }) (fun svc => rfl) ?_
      fun h => holds_setSource h _
    exact fun d' hsame => ⟨hsame.tags.symm, hsame.metadata.symm, StringMaps.Same.refl _⟩

/-- **The sidecar is transparent.** Where two file systems hold the same content for a file, one in its
attributes and one, which knows no attributes, in its sidecar, every sequence of calls gets the same
answers. -/
theorem answers_same (hw : Native path d w) (hw' : Fallen path file d w') (rs : List Request) :
    List.Forall₂ Same (answers svc path rs w) (answers ⟨true⟩ path rs w') := by
  induction rs generalizing d w w' with
  | nil => exact .nil
  | cons r rs ih =>
    obtain ⟨a, a', w₁, w₁', d₁, hr, hr', hsame, hw₁, hw₁'⟩ := @alike svc _ _ _ _ _ hw hw' r
    rw [answers, answers, show r.run svc path ⟨w, []⟩ = _ from hr, show r.run ⟨true⟩ path ⟨w', []⟩ = _ from hr']
    exact .cons hsame (ih hw₁ hw₁')

/-- A new file on a file system with attributes, and on one without. -/
def newFile (supported : Bool) : Files where
  attrs _ := some empty
  supported _ := supported
  disk := ⟨fun _ => some (7, 1), fun _ => none⟩

theorem answers_same_newFile :
    List.Forall₂ Same
      (answers ⟨false⟩ "/a" [.writeTags ["x"], .writeSource none, .readTags, .readSource] (newFile true))
      (answers ⟨true⟩ "/a" [.writeTags ["x"], .writeSource none, .readTags, .readSource] (newFile false)) := by
  have hholds : Holds empty {} := ⟨rfl, fun _ => rfl, .inl ⟨rfl, StringMaps.Same.refl _⟩⟩
  have hempty : Data.Same {} {} := ⟨rfl, StringMaps.Same.refl _, StringMaps.Same.refl _⟩
  have hfallen : Fallen "/a" (7, 1) {} (newFile false) := ⟨rfl, rfl, rfl, .inl ⟨rfl, hempty⟩⟩
  exact answers_same ⟨rfl, empty, rfl, hholds⟩ hfallen _

end Tilbo.Sidecar.Transparent
