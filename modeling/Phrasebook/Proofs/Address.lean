import Phrasebook.Address
import Phrasebook.Proofs.Text.Cutting
import Mathlib.Data.List.Induction

/-!
# Switching the locale of an address

* `Address.Segmented` is an address in parts: the slashes that it begins with, its first segment and the rest. From them
  `Segmented.dropLocale` tells what is left of it without its locale.
* `Address.LiesBelow` says which addresses a base is taken off.
* `Address.strip_append`: a base in front of an address is taken off once, whatever the address is.
* `Address.strip_relocate`: the locale that an address was switched to is taken off again, and nothing else.
* `Address.relocate_relocate`: so of two switches the last one wins.
-/

namespace Phrasebook.Address

/-- An address is empty or begins with a slash. -/
def Rooted (path : List Char) : Prop := path = [] ∨ ∃ more, path = '/' :: more

variable {path base slashes segment rest : List Char}

/-! ## The first segment -/

/-- An address in parts: the slashes that it begins with, its first segment, and the rest. -/
structure Segmented (path slashes segment rest : List Char) : Prop where
  eq : path = slashes ++ (segment ++ rest)
  eq_slash : ∀ c ∈ slashes, c = '/'
  slash_notMem : '/' ∉ segment
  /-- no slash that could be in front of the segment is behind it -/
  rest_eq : rest = [] ∨ segment ≠ [] ∧ ∃ more, rest = '/' :: more

/-- Every address has such parts. -/
theorem exists_segmented (path : List Char) : ∃ slashes segment rest, Segmented path slashes segment rest := by
  induction path with
  | nil => exact ⟨[], [], [], rfl, by simp, by simp, Or.inl rfl⟩
  | cons c path ih =>
    by_cases hc : c = '/'
    · obtain ⟨slashes, segment, rest, h⟩ := ih
      exact ⟨c :: slashes, segment, rest, congrArg (c :: ·) h.eq, List.forall_mem_cons.2 ⟨hc, h.eq_slash⟩,
        h.slash_notMem, h.rest_eq⟩
    · -- the segment begins here, and ends at the next slash if there is one
      cases hcut : Text.cutAt? '/' path with
      | none =>
        have hnew := Text.cutAt?_eq_none_iff.1 hcut
        exact ⟨[], c :: path, [], by simp, by simp, List.not_mem_cons_of_ne_of_not_mem (Ne.symm hc) hnew, Or.inl rfl⟩
      | some cut =>
        obtain ⟨segment, rest⟩ := cut
        obtain ⟨rfl, hnew⟩ := Text.cutAt?_eq_some hcut
        exact ⟨[], c :: segment, '/' :: rest, rfl, by simp, List.not_mem_cons_of_ne_of_not_mem (Ne.symm hc) hnew,
          Or.inr ⟨List.cons_ne_nil _ _, rest, rfl⟩⟩

namespace Segmented

variable (h : Segmented path slashes segment rest)
include h

theorem rooted_rest : Rooted rest := h.rest_eq.imp_right And.right

theorem dropWhile : path.dropWhile (· = '/') = segment ++ rest := by
  rw [h.eq, List.dropWhile_append_of_pos (by simpa using h.eq_slash)]
  cases segment with
  | nil =>
    rcases h.rest_eq with hr | ⟨hne, -⟩
    · rw [hr]
      rfl
    · exact absurd rfl hne
  | cons c segment =>
    have hc : c ≠ '/' := Ne.symm (List.ne_of_not_mem_cons h.slash_notMem)
    rw [List.cons_append, List.dropWhile_cons_of_neg (by simpa using hc)]

/-- **What is left of an address without its locale**: the rest behind the first segment if that is a locale, and else
all of it, unless it is a slash alone. -/
theorem dropLocale (locales : List String) : dropLocale locales path =
    if String.ofList segment ∈ locales then rest else if path = ['/'] then [] else path := by
  unfold Address.dropLocale
  dsimp only
  rw [h.dropWhile]
  rcases h.rest_eq with hr | ⟨-, more, hr⟩
  · rw [hr, List.append_nil, Text.cutAt?_eq_none_iff.2 h.slash_notMem]
    simp only [List.contains_iff_mem]
  · rw [hr, Text.cutAt?_append more h.slash_notMem]
    simp only [List.contains_iff_mem]

end Segmented

/-- An address is one of the locales, with slashes before it, and the rest behind it. -/
def HasLocale (locales : List String) (path rest : List Char) : Prop :=
  ∃ slashes segment, Segmented path slashes segment rest ∧ String.ofList segment ∈ locales

theorem dropLocale_of_hasLocale {locales : List String} (h : HasLocale locales path rest) :
    dropLocale locales path = rest := by
  obtain ⟨slashes, segment, h, hmem⟩ := h
  rw [h.dropLocale, if_pos hmem]

theorem dropLocale_of_not_hasLocale {locales : List String} (h : ∀ rest, ¬HasLocale locales path rest) :
    dropLocale locales path = if path = ['/'] then [] else path := by
  obtain ⟨slashes, segment, rest, hs⟩ := exists_segmented path
  rw [hs.dropLocale, if_neg fun hmem => h rest ⟨slashes, segment, hs, hmem⟩]

theorem rooted_dropLocale (hp : Rooted path) (locales : List String) : Rooted (dropLocale locales path) := by
  obtain ⟨slashes, segment, rest, h⟩ := exists_segmented path
  rw [h.dropLocale]
  split
  · exact h.rooted_rest
  · split
    · exact Or.inl rfl
    · exact hp

/-! ## The base -/

theorem trimSlashes_eq_self (h : base.getLast? ≠ some '/') : trimSlashes base = base := by
  cases base using List.reverseRecOn with
  | nil => rfl
  | append_singleton before last =>
    have hlast : last ≠ '/' := fun heq => h (by rw [heq, List.getLast?_concat])
    rw [trimSlashes, List.reverse_concat, List.dropWhile_cons_of_neg (by simpa using hlast), ← List.reverse_concat,
      List.reverse_reverse]

/-- An address lies below a base: it is the base, or goes on with a slash behind the base without its own slashes. -/
def LiesBelow (base path : List Char) : Prop := base ≠ [] ∧ (path = base ∨ trimSlashes base ++ ['/'] <+: path)

theorem below_of_liesBelow (h : LiesBelow base path) : below base path = path.drop (trimSlashes base).length := by
  refine if_pos ?_
  simpa [LiesBelow, List.isPrefixOf_iff_prefix] using h

theorem below_of_not_liesBelow (h : ¬LiesBelow base path) : below base path = path := by
  refine if_neg fun hb => h ?_
  simpa [LiesBelow, List.isPrefixOf_iff_prefix] using hb

/-- What lies below a base that was put in front of an address is the address, though it may begin with the base. -/
theorem below_append (hne : base ≠ []) (hend : base.getLast? ≠ some '/') (hp : Rooted path) :
    below base (base ++ path) = path := by
  have hbelow : LiesBelow base (base ++ path) := by
    refine ⟨hne, ?_⟩
    rcases hp with rfl | ⟨more, rfl⟩
    · exact Or.inl (List.append_nil base)
    · exact Or.inr ⟨more, by rw [trimSlashes_eq_self hend, List.append_assoc, List.singleton_append]⟩
  rw [below_of_liesBelow hbelow, trimSlashes_eq_self hend, List.drop_left]

/-! ## Switching -/

section

variable {path base locale : String} {locales : List String}

/-- Without a base an address is left without its locale. -/
theorem strip_none (path : String) (locales : List String) :
    strip path locales none = String.ofList (dropLocale locales path.toList) := by
  rw [strip, Option.map_none, Option.getD_none, below, if_neg (by simp)]

/-- A base is taken off once. -/
theorem strip_append (hne : base ≠ "") (hend : base.toList.getLast? ≠ some '/') (hp : Rooted path.toList) :
    strip (base ++ path) locales (some base) = strip path locales none := by
  have hne' : base.toList ≠ [] := fun h => hne (String.toList_eq_nil_iff.1 h)
  rw [strip_none, strip, Option.map_some, Option.getD_some, String.toList_append, below_append hne' hend hp]

/-- Two addresses that are the same but for their bases and locales are switched to the same. -/
theorem relocate_congr {path' : String} {base base' : Option String}
    (h : strip path locales base = strip path' locales base') (locale : String) (query : Option Query) :
    relocate path locale locales base query = relocate path' locale locales base' query := by
  rw [relocate, relocate, h]

/-- The locale that an address has been switched to is taken off again, and nothing else. -/
theorem strip_relocate {base : Option String} (hmem : locale ∈ locales) (hne : locale ≠ "") (hs : '/' ∉ locale.toList)
    (hr : Rooted (strip path locales base).toList) :
    strip (relocate path locale locales base none) locales none = strip path locales base := by
  have hparts : Segmented ("/" ++ locale ++ strip path locales base).toList ['/'] locale.toList
      (strip path locales base).toList := by
    refine ⟨by simp [String.toList_append], by simp, hs, ?_⟩
    exact hr.imp_right fun hmore => ⟨fun h => hne (String.toList_eq_nil_iff.1 h), hmore⟩
  have haddress : relocate path locale locales base none = "/" ++ locale ++ strip path locales base := rfl
  rw [haddress, strip_none, hparts.dropLocale, String.ofList_toList, if_pos hmem, String.ofList_toList]

/-- **The last switch wins.** An address below a base is switched to one of the locales, without the base, and then to
any locale: that is what it is switched to at once, without the base. For the base is taken off once, the first switch
is undone, and of the address itself only a locale that is its first segment is taken off, with the slashes before it,
or a slash if it is all there is. -/
theorem relocate_relocate (hpath : Rooted path.toList) (hbase : base ≠ "") (hend : base.toList.getLast? ≠ some '/')
    (hmem : locale ∈ locales) (hne : locale ≠ "") (hs : '/' ∉ locale.toList) :
    (∀ (last : String) (query : Option Query),
      relocate (relocate (base ++ path) locale locales (some base) none) last locales none query =
        relocate path last locales none query) ∧
    strip (base ++ path) locales (some base) = strip path locales none ∧
    strip (relocate (base ++ path) locale locales (some base) none) locales none = strip path locales none ∧
    ∃ slashes segment rest, Segmented path.toList slashes segment rest ∧
      (strip path locales none).toList =
        if String.ofList segment ∈ locales then rest else if path = "/" then [] else path.toList := by
  have hstrip : strip (base ++ path) locales (some base) = strip path locales none := strip_append hbase hend hpath
  have hroot : Rooted (strip (base ++ path) locales (some base)).toList := by
    rw [hstrip, strip_none, String.toList_ofList]
    exact rooted_dropLocale hpath locales
  have hundone := (strip_relocate hmem hne hs hroot).trans hstrip
  refine ⟨fun last query => relocate_congr hundone last query, hstrip, hundone, ?_⟩
  obtain ⟨slashes, segment, rest, h⟩ := exists_segmented path.toList
  have hslash : path.toList = ['/'] ↔ path = "/" := @String.toList_inj path "/"
  refine ⟨slashes, segment, rest, h, ?_⟩
  rw [strip_none, String.toList_ofList, h.dropLocale]
  simp only [hslash]

/-- An address that begins with its base again, with more slashes than one and a locale further on. -/
theorem relocate_relocate_docs :
    let locales := ["en", "fr"]
    let path := "/docs//en/"
    Rooted path.toList ∧ "/docs" ≠ "" ∧ "/docs".toList.getLast? ≠ some '/' ∧ "fr" ∈ locales ∧ "fr" ≠ "" ∧
      '/' ∉ "fr".toList ∧ relocate ("/docs" ++ path) "fr" locales (some "/docs") none = "/fr/docs//en/" ∧
      relocate (relocate ("/docs" ++ path) "fr" locales (some "/docs") none) "en" locales none none =
        relocate path "en" locales none none ∧
      relocate path "en" locales none none = "/en/docs//en/" := by
  intro locales path
  have hpath : Rooted path.toList := Or.inr ⟨"docs//en/".toList, by decide +kernel⟩
  have hbase : "/docs" ≠ "" := by decide
  have hend : "/docs".toList.getLast? ≠ some '/' := by decide +kernel
  have hmem : "fr" ∈ locales := by decide
  have hne : "fr" ≠ "" := by decide
  have hs : '/' ∉ "fr".toList := by decide +kernel
  exact ⟨hpath, hbase, hend, hmem, hne, hs, by decide +kernel,
    (relocate_relocate hpath hbase hend hmem hne hs).1 "en" none, by decide +kernel⟩

end

end Phrasebook.Address
