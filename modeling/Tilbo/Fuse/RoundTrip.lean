import Tilbo.Fuse.Grammar

/-! # Names of several tags

The tags of an expression, each encoded, joined by `+` (those to exclude with a `!` in front) or by `,`, come
back from `ParseExpr` in their order. No separator is left in an encoded tag, so that splitting undoes
the join. -/

namespace Tilbo.Fuse.RoundTrip

open Tilbo.Fuse.Expr Tilbo.Fuse.Grammar Tilbo.Xattr.Csv

/-- The directory of the files that have all of `inc` and none of `exc`. -/
def andName (inc exc : List String) : String :=
  "+".intercalate (inc.map percentEncode ++ exc.map fun t => "!" ++ percentEncode t)

/-- The directory of the files that have one of the tags. -/
def orName (tags : List String) : String := ",".intercalate (tags.map percentEncode)

variable {isPrint : Char → Bool} {c : Char} {t : String} {tags inc exc : List String}

/-! ### Joined names -/

theorem mem_intercalate {x : Char} {parts : List (List Char)} (h : c ∈ [x].intercalate parts) :
    c = x ∨ ∃ p ∈ parts, c ∈ p := by
  induction parts with
  | nil => simp at h
  | cons p parts ih =>
    cases parts with
    | nil => exact Or.inr ⟨p, by simp, by simpa using h⟩
    | cons q parts =>
      rw [List.intercalate_cons_cons, List.mem_append, List.mem_append, List.mem_singleton] at h
      rcases h with (h | h) | h
      · exact Or.inr ⟨p, by simp, h⟩
      · exact Or.inl h
      · exact (ih h).imp_right fun ⟨r, hr, hc⟩ => ⟨r, by simp [hr], hc⟩

/-- The first character of a joined name is that of the first part. -/
theorem head_intercalate {x : Char} {p : List Char} {parts : List (List Char)} (hp : p ≠ []) :
    ([x].intercalate (p :: parts)).head? = p.head? := by
  cases parts with
  | nil => simp
  | cons q parts => rw [List.intercalate_cons_cons, List.append_assoc, List.head?_append_of_ne_nil _ hp]

/-! ### White space -/

theorem dropWhile_isSpace {l : List Char} :
    l.dropWhile isSpace = l ↔ ∀ c, l.head? = some c → isSpace c = false := by
  cases l with
  | nil => simp
  | cons a l =>
    cases ha : isSpace a with
    | false => simp [ha]
    | true =>
      rw [List.dropWhile_cons_of_pos ha]
      refine iff_of_false (fun h => ?_) fun h => ?_
      · have hlen := congrArg List.length h
        have hle := (List.dropWhile_suffix (l := l) isSpace).length_le
        rw [List.length_cons] at hlen
        omega
      · have := h a rfl
        rw [ha] at this
        exact Bool.noConfusion this

theorem rdropWhile_isSpace {l : List Char} :
    l.rdropWhile isSpace = l ↔ ∀ c, l.getLast? = some c → isSpace c = false := by
  rw [List.rdropWhile_eq_self_iff]
  refine ⟨fun h c hc => ?_, fun h hl => ?_⟩
  · have hl : l ≠ [] := fun hnil => by rw [hnil] at hc; cases hc
    rw [List.getLast?_eq_some_getLast hl, Option.some.injEq] at hc
    rw [← hc]
    simpa using h hl
  · simpa using h _ (List.getLast?_eq_some_getLast hl)

/-- Nothing is trimmed exactly if neither end is white space. -/
theorem trimSpace_eq_self_iff {l : List Char} : trimSpace l = l ↔
    (∀ c, l.head? = some c → isSpace c = false) ∧ ∀ c, l.getLast? = some c → isSpace c = false := by
  rw [← dropWhile_isSpace, ← rdropWhile_isSpace, trimSpace]
  constructor
  · intro h
    have hdrop : l.dropWhile isSpace = l := by
      refine (List.dropWhile_suffix _).eq_of_length_le ?_
      have hle := (List.rdropWhile_prefix isSpace (l := l.dropWhile isSpace)).length_le
      rwa [h] at hle
    rw [hdrop] at h
    exact ⟨hdrop, h⟩
  · rintro ⟨h, h'⟩
    rw [h, h']

/-- The last character of the encoding is the tag's, or a digit. -/
theorem getLast_percentEncode (h : (percentEncode t).toList.getLast? = some c) :
    t.toList.getLast? = some c ∨ c ∈ ['5', 'B', 'C', '1'] := by
  rw [percentEncode, String.toList_ofList] at h
  rcases List.eq_nil_or_concat t.toList with ht | ⟨l, a, ht⟩
  · rw [ht] at h
    simp at h
  · rw [ht, List.concat_eq_append, List.flatMap_append, List.flatMap_singleton] at h
    rw [ht, List.concat_eq_append, List.getLast?_concat]
    by_cases ha : a ∈ ['%', '+', ',', '!']
    · right
      simp only [List.mem_cons, List.not_mem_nil, or_false] at ha
      rcases ha with rfl | rfl | rfl | rfl <;> simp [encodeChar, List.getLast?_append] at h <;> simp [← h]
    · rw [encodeChar_other ha, List.getLast?_concat] at h
      exact Or.inl h

/-- Encoding a tag leaves its ends free of white space. -/
theorem trimSpace_percentEncode (ht : trimSpace t.toList = t.toList) :
    trimSpace (percentEncode t).toList = (percentEncode t).toList := by
  obtain ⟨hhead, hlast⟩ := trimSpace_eq_self_iff.mp ht
  refine trimSpace_eq_self_iff.mpr ⟨fun c hc => ?_, fun c hc => ?_⟩
  · by_cases hspecial : c ∈ ['%', '+', ',', '!']
    · simp only [List.mem_cons, List.not_mem_nil, or_false] at hspecial
      rcases hspecial with rfl | rfl | rfl | rfl <;> decide
    · exact hhead c ((head_percentEncode hspecial).mp hc)
  · rcases getLast_percentEncode hc with h | h
    · exact hlast c h
    · simp only [List.mem_cons, List.not_mem_nil, or_false] at h
      rcases h with rfl | rfl | rfl | rfl <;> decide

/-! ### The parts -/

/-- The encoding of a tag as part of an OR expression. -/
theorem orTag_percentEncode (hne : t ≠ "") (ht : trimSpace t.toList = t.toList) :
    orTag (percentEncode t).toList = .ok (utf8 t) := by
  have henc : (percentEncode t).toList ≠ [] := mt percentEncode_eq_empty.mp hne
  have hbang : (percentEncode t).toList.head? ≠ some '!' := fun h =>
    separator_not_mem (d := '!') (by simp) t (List.mem_of_mem_head? h)
  rw [orTag, trimSpace_percentEncode ht, if_neg henc, if_neg hbang, percentDecode_percentEncode]
  rfl

theorem mapM_orTag (h : ∀ t ∈ tags, t ≠ "" ∧ trimSpace t.toList = t.toList) :
    ((tags.map percentEncode).map String.toList).mapM orTag = .ok (tags.map utf8) := by
  induction tags with
  | nil => rfl
  | cons t tags ih =>
    rw [List.map_cons, List.map_cons, List.mapM_cons, orTag_percentEncode (h t (by simp)).1 (h t (by simp)).2,
      ih fun u hu => h u (by simp [hu])]
    rfl

theorem andTag_percentEncode (hne : t ≠ "") : andTag (percentEncode t).toList = .ok (utf8 t) := by
  have hutf8 : utf8 t ≠ [] := fun h => hne (utf8_inj (h.trans rfl))
  rw [andTag, percentDecode_percentEncode]
  exact if_neg hutf8

/-- The tags to have, one after the other. -/
theorem foldlM_include (h : ∀ t ∈ inc, t ≠ "") (done : List GoString) (exc : List GoString) :
    ((inc.map percentEncode).map String.toList).foldlM andPart (done, exc) =
      .ok (done ++ inc.map utf8, exc) := by
  induction inc generalizing done with
  | nil => simp; rfl
  | cons t inc ih =>
    have henc : (percentEncode t).toList ≠ [] := mt percentEncode_eq_empty.mp (h t (by simp))
    have hbang : (percentEncode t).toList.head? ≠ some '!' := fun h =>
      separator_not_mem (d := '!') (by simp) t (List.mem_of_mem_head? h)
    have hpart : andPart (done, exc) (percentEncode t).toList = .ok (done ++ [utf8 t], exc) := by
      rw [andPart, if_neg henc, if_neg hbang, andTag_percentEncode (h t (by simp))]
      rfl
    rw [List.map_cons, List.map_cons, List.foldlM_cons, hpart]
    refine (ih (fun u hu => h u (by simp [hu])) _).trans ?_
    simp

/-- The tags not to have, after at least one to have. -/
theorem foldlM_exclude (h : ∀ t ∈ exc, t ≠ "") {inc : List GoString} (hinc : inc ≠ []) (done : List GoString) :
    ((exc.map fun t => "!" ++ percentEncode t).map String.toList).foldlM andPart (inc, done) =
      .ok (inc, done ++ exc.map utf8) := by
  induction exc generalizing done with
  | nil => simp; rfl
  | cons t exc ih =>
    have henc : (percentEncode t).toList ≠ [] := mt percentEncode_eq_empty.mp (h t (by simp))
    have hlist : ("!" ++ percentEncode t).toList = '!' :: (percentEncode t).toList := by
      rw [String.toList_append]
      rfl
    have hpart : andPart (inc, done) ("!" ++ percentEncode t).toList = .ok (inc, done ++ [utf8 t]) := by
      rw [hlist, andPart, if_neg (List.cons_ne_nil _ _), List.head?_cons, if_pos rfl, List.tail_cons, if_neg henc,
        if_neg hinc, andTag_percentEncode (h t (by simp))]
      rfl
    rw [List.map_cons, List.map_cons, List.foldlM_cons, hpart]
    refine (ih (fun u hu => h u (by simp [hu])) _).trans ?_
    simp

/-! ### The round trip -/

/-- The characters of an encoded tag can all be printed. -/
theorem isPrint_percentEncode (hascii : ∀ c, ' ' ≤ c → c ≤ '~' → isPrint c = true)
    (ht : ∀ c ∈ t.toList, isPrint c = true) : ∀ c ∈ (percentEncode t).toList, isPrint c = true := by
  intro c hc
  rcases mem_percentEncode hc with hc | hc
  · exact ht c hc
  · simp only [List.mem_cons, List.not_mem_nil, or_false] at hc
    rcases hc with rfl | rfl | rfl | rfl | rfl | rfl <;> exact hascii _ (by decide) (by decide)

/-- A tag the grammar can name. -/
def Nameable (isPrint : Char → Bool) (t : String) : Prop := t ≠ "" ∧ ∀ c ∈ t.toList, isPrint c = true

/-- A name joined from parts that can be printed, the first of which does not start with `@`, is a tag
expression. -/
theorem parseExpr_join {clock : Clock} {sep : Char} {p : List Char} {parts : List (List Char)} (hp : p ≠ [])
    (hat : p.head? ≠ some '@') : parseExpr isPrint clock (String.ofList ([sep].intercalate (p :: parts))) =
      parseTagExpr isPrint ([sep].intercalate (p :: parts)) := by
  rw [parseExpr, String.toList_ofList, head_intercalate hp, if_neg hat]

theorem print_join {sep : Char} {parts : List (List Char)} (hsep : isPrint sep = true)
    (hprint : ∀ p ∈ parts, ∀ c ∈ p, isPrint c = true) :
    (([sep].intercalate parts).any fun r => !isPrint r) = false := by
  rw [List.any_eq_false]
  intro c hc
  rcases mem_intercalate hc with rfl | ⟨p, hp, hc⟩
  · simp [hsep]
  · simp [hprint p hp c hc]

theorem ne_nil_join {sep : Char} {p : List Char} {parts : List (List Char)} (hp : p ≠ []) :
    [sep].intercalate (p :: parts) ≠ [] := by
  intro h
  have hhead : ([sep].intercalate (p :: parts)).head? = p.head? := head_intercalate hp
  rw [h, List.head?_nil] at hhead
  exact hp (List.head?_eq_none_iff.mp hhead.symm)

/-- Tags to have, then tags not to have. -/
theorem parseExpr_andName (hascii : ∀ c, ' ' ≤ c → c ≤ '~' → isPrint c = true) (clock : Clock) (hinc : inc ≠ [])
    (hinc' : ∀ t ∈ inc, Nameable isPrint t) (hexc : ∀ t ∈ exc, Nameable isPrint t)
    (hat : ∀ t, inc.head? = some t → t.toList.head? ≠ some '@') :
    parseExpr isPrint clock (andName inc exc) = .ok (.tag (inc.map utf8) false (exc.map utf8)) := by
  obtain ⟨t, inc, rfl⟩ := List.exists_cons_of_ne_nil hinc
  have henc : (percentEncode t).toList ≠ [] := mt percentEncode_eq_empty.mp (hinc' t (by simp)).1
  have hhead : (percentEncode t).toList.head? ≠ some '@' := mt (head_percentEncode (by simp)).mp (hat t rfl)
  obtain ⟨parts, hparts⟩ : ∃ parts : List (List Char), parts =
      ((t :: inc).map percentEncode ++ exc.map fun t => "!" ++ percentEncode t).map String.toList := ⟨_, rfl⟩
  have hmem : ∀ p ∈ parts, ∀ c ∈ p, c = '!' ∨ ∃ u ∈ (t :: inc) ++ exc, c ∈ (percentEncode u).toList := by
    intro p hp c hc
    rw [hparts, List.map_append, List.mem_append, List.map_map, List.map_map, List.mem_map, List.mem_map] at hp
    rcases hp with ⟨u, hu, rfl⟩ | ⟨u, hu, rfl⟩
    · exact Or.inr ⟨u, List.mem_append_left _ hu, hc⟩
    · rw [Function.comp_apply, String.toList_append, List.mem_append] at hc
      rcases hc with hc | hc
      · exact Or.inl (by simpa using hc)
      · exact Or.inr ⟨u, List.mem_append_right _ hu, hc⟩
  have hprint : ∀ p ∈ parts, ∀ c ∈ p, isPrint c = true := by
    intro p hp c hc
    rcases hmem p hp c hc with rfl | ⟨u, hu, hc⟩
    · exact hascii _ (by decide) (by decide)
    · refine isPrint_percentEncode hascii (fun d hd => ?_) c hc
      rcases List.mem_append.mp hu with hu | hu
      · exact (hinc' u hu).2 d hd
      · exact (hexc u hu).2 d hd
  have hfree : ∀ d ∈ ['+', ','], ∀ p ∈ parts, d ∉ p := by
    intro d hd p hp hdp
    rcases hmem p hp d hdp with rfl | ⟨u, -, hu⟩
    · simp at hd
    · exact separator_not_mem (List.mem_append_left ['!'] hd) u hu
  have hcomma : ',' ∉ ['+'].intercalate parts := by
    intro h
    rcases mem_intercalate h with h | ⟨p, hp, hc⟩
    · exact absurd h (by decide)
    · exact hfree ',' (by simp) p hp hc
  have hcons : parts = (percentEncode t).toList ::
      (inc.map percentEncode ++ exc.map fun t => "!" ++ percentEncode t).map String.toList := hparts
  have hname : andName (t :: inc) exc = String.ofList (['+'].intercalate parts) := by
    simp only [← String.toList_inj, andName, String.toList_intercalate, String.toList_ofList, hparts]
    rfl
  have hsplit : (['+'].intercalate parts).splitOn '+' = parts :=
    List.splitOn_intercalate _ (hfree '+' (by simp)) (by rw [hcons]; simp)
  have hfold : parts.foldlM andPart ([], []) = .ok ((t :: inc).map utf8, exc.map utf8) := by
    rw [hparts, List.map_append, List.foldlM_append, foldlM_include fun u hu => (hinc' u hu).1]
    exact foldlM_exclude (fun u hu => (hexc u hu).1) (by simp) []
  have hjoin : parseExpr isPrint clock (andName (t :: inc) exc) =
      parseTagExpr isPrint (['+'].intercalate parts) := by
    rw [hname, hcons]
    exact parseExpr_join henc hhead
  rw [hjoin, parseTagExpr, if_neg (hcons ▸ ne_nil_join henc),
    print_join (hascii _ (by decide) (by decide)) hprint, if_neg (by simp), if_neg hcomma, hsplit, hfold]
  rfl

/-- At least two alternatives. -/
theorem parseExpr_orName (hascii : ∀ c, ' ' ≤ c → c ≤ '~' → isPrint c = true) (clock : Clock)
    (htwo : 2 ≤ tags.length) (htags : ∀ t ∈ tags, Nameable isPrint t)
    (htrim : ∀ t ∈ tags, trimSpace t.toList = t.toList)
    (hat : ∀ t, tags.head? = some t → t.toList.head? ≠ some '@') :
    parseExpr isPrint clock (orName tags) = .ok (.tag (tags.map utf8) true []) := by
  obtain ⟨t, u, tags, rfl⟩ : ∃ t u rest, tags = t :: u :: rest := by
    rcases tags with _ | ⟨t, _ | ⟨u, tags⟩⟩
    · simp at htwo
    · simp at htwo
    · exact ⟨t, u, tags, rfl⟩
  have henc : (percentEncode t).toList ≠ [] := mt percentEncode_eq_empty.mp (htags t (by simp)).1
  have hhead : (percentEncode t).toList.head? ≠ some '@' := mt (head_percentEncode (by simp)).mp (hat t rfl)
  obtain ⟨parts, hparts⟩ : ∃ parts : List (List Char),
      parts = ((t :: u :: tags).map percentEncode).map String.toList := ⟨_, rfl⟩
  have hmem : ∀ p ∈ parts, ∃ v ∈ t :: u :: tags, p = (percentEncode v).toList := by
    intro p hp
    rw [hparts, List.map_map, List.mem_map] at hp
    obtain ⟨v, hv, rfl⟩ := hp
    exact ⟨v, hv, rfl⟩
  have hprint : ∀ p ∈ parts, ∀ c ∈ p, isPrint c = true := by
    intro p hp
    obtain ⟨v, hv, rfl⟩ := hmem p hp
    exact isPrint_percentEncode hascii (htags v hv).2
  have hfree : ∀ d ∈ ['+', ','], ∀ p ∈ parts, d ∉ p := by
    intro d hd p hp
    obtain ⟨v, -, rfl⟩ := hmem p hp
    exact separator_not_mem (List.mem_append_left ['!'] hd) v
  have hplus : '+' ∉ [','].intercalate parts := by
    intro h
    rcases mem_intercalate h with h | ⟨p, hp, hc⟩
    · exact absurd h (by decide)
    · exact hfree '+' (by simp) p hp hc
  have hcons : parts = (percentEncode t).toList :: ((u :: tags).map percentEncode).map String.toList := hparts
  have hcomma : ',' ∈ [','].intercalate parts := by
    rw [hcons, List.map_cons, List.map_cons, List.intercalate_cons_cons]
    simp
  have hname : orName (t :: u :: tags) = String.ofList ([','].intercalate parts) := by
    simp only [← String.toList_inj, orName, String.toList_intercalate, String.toList_ofList, hparts]
    rfl
  have hsplit : ([','].intercalate parts).splitOn ',' = parts :=
    List.splitOn_intercalate _ (hfree ',' (by simp)) (by rw [hcons]; simp)
  have hparse : parts.mapM orTag = .ok ((t :: u :: tags).map utf8) := by
    rw [hparts]
    exact mapM_orTag fun v hv => ⟨(htags v hv).1, htrim v hv⟩
  have hjoin : parseExpr isPrint clock (orName (t :: u :: tags)) =
      parseTagExpr isPrint ([','].intercalate parts) := by
    rw [hname, hcons]
    exact parseExpr_join henc hhead
  rw [hjoin, parseTagExpr, if_neg (hcons ▸ ne_nil_join henc),
    print_join (hascii _ (by decide) (by decide)) hprint, if_neg (by simp), if_pos hcomma, if_neg hplus, hsplit,
    hparse]
  rfl

/-- **The grammar loses nothing.** The tags of a joined name come back as they were, in their order. -/
theorem parseExpr_roundTrip (hascii : ∀ c, ' ' ≤ c → c ≤ '~' → isPrint c = true) (clock : Clock) :
    (∀ inc exc : List String, inc ≠ [] → (∀ t ∈ inc, Nameable isPrint t) → (∀ t ∈ exc, Nameable isPrint t) →
      (∀ t, inc.head? = some t → t.toList.head? ≠ some '@') →
      parseExpr isPrint clock (andName inc exc) = .ok (.tag (inc.map utf8) false (exc.map utf8))) ∧
    ∀ tags : List String, 2 ≤ tags.length → (∀ t ∈ tags, Nameable isPrint t) →
      (∀ t ∈ tags, trimSpace t.toList = t.toList) →
      (∀ t, tags.head? = some t → t.toList.head? ≠ some '@') →
      parseExpr isPrint clock (orName tags) = .ok (.tag (tags.map utf8) true []) :=
  ⟨fun _ _ hinc hinc' hexc hat => parseExpr_andName hascii clock hinc hinc' hexc hat,
    fun _ htwo htags htrim hat => parseExpr_orName hascii clock htwo htags htrim hat⟩

/-- The tags `c++` and `a,b` but not `!important`, and `c++` or `a,b`. -/
theorem parseExpr_roundTrip_special :
    parseExpr (fun c => ' ' ≤ c && c ≤ '~') ⟨0, 0⟩ (andName ["c++", "a,b"] ["!important"]) =
      .ok (.tag (["c++", "a,b"].map utf8) false (["!important"].map utf8)) ∧
    parseExpr (fun c => ' ' ≤ c && c ≤ '~') ⟨0, 0⟩ (orName ["c++", "a,b"]) =
      .ok (.tag (["c++", "a,b"].map utf8) true []) := by
  have hround := @parseExpr_roundTrip (fun c => ' ' ≤ c && c ≤ '~') (fun c h h' => by simp [h, h']) ⟨0, 0⟩
  exact ⟨hround.1 ["c++", "a,b"] ["!important"] (by decide) (by simp [Nameable]) (by simp [Nameable])
      (fun t h => by cases h; decide), hround.2 ["c++", "a,b"] (by decide) (by simp [Nameable]) (by decide +kernel)
      fun t h => by cases h; decide⟩

end Tilbo.Fuse.RoundTrip
