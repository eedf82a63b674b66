import Mathlib.Data.List.DropRight
import Phrasebook.Proofs.Address

/-!
# Slashes at the ends of an address and of its base

* `Address.rooted_strip_iff`: what is left of an address begins with a slash if the address does, lies below the base or
  begins with a locale. Any other address is left as it is, and the locale that it is switched to runs into it.
* `Address.strip_concat_slash_iff`: with a slash at its end a base takes the same off every address but the base itself.
-/

namespace Phrasebook.Address

variable {path base rest : List Char} {locales : List String}

/-! ## A slash before an address -/

theorem rooted_of_forall_slash {slashes : List Char} (h : ∀ c ∈ slashes, c = '/') : Rooted slashes := by
  cases slashes with
  | nil => exact Or.inl rfl
  | cons c slashes => exact Or.inr ⟨slashes, congrArg (· :: slashes) (h c List.mem_cons_self)⟩

/-- A base is what is left of it without the slashes at its end, and these slashes. -/
theorem exists_trimSlashes_append (base : List Char) :
    ∃ slashes, base = trimSlashes base ++ slashes ∧ ∀ c ∈ slashes, c = '/' := by
  refine ⟨(base.reverse.takeWhile (· = '/')).reverse, ?_, fun c hc => ?_⟩
  · rw [trimSlashes, ← List.reverse_append, List.takeWhile_append_dropWhile, List.reverse_reverse]
  · simpa using List.mem_takeWhile_imp (List.mem_reverse.1 hc)

theorem rooted_below (h : LiesBelow base path) : Rooted (below base path) := by
  rw [below_of_liesBelow h]
  rcases h.2 with rfl | ⟨more, rfl⟩
  · obtain ⟨slashes, hbase, hslashes⟩ := exists_trimSlashes_append path
    have hdrop : (trimSlashes path ++ slashes).drop (trimSlashes path).length = slashes := List.drop_left
    rw [← hbase] at hdrop
    rw [hdrop]
    exact rooted_of_forall_slash hslashes
  · rw [List.append_assoc, List.drop_left]
    exact Or.inr ⟨more, rfl⟩

theorem rooted_of_hasLocale (h : HasLocale locales path rest) : Rooted rest := by
  obtain ⟨slashes, segment, h, -⟩ := h
  exact h.rooted_rest

/-- An address that something can be put in front of: it begins with a slash if it is not empty, or something is taken
off it that leaves a slash in front. -/
def Joinable (locales : List String) (base path : List Char) : Prop :=
  Rooted path ∨ LiesBelow base path ∨ ∃ rest, HasLocale locales path rest

theorem Joinable.rooted (h : Joinable locales base path) : Rooted (dropLocale locales (below base path)) := by
  by_cases hbelow : LiesBelow base path
  · exact rooted_dropLocale (rooted_below hbelow) locales
  · rw [below_of_not_liesBelow hbelow]
    rcases h with hroot | h | ⟨rest, h⟩
    · exact rooted_dropLocale hroot locales
    · exact absurd h hbelow
    · rw [dropLocale_of_hasLocale h]
      exact rooted_of_hasLocale h

/-- Nothing is taken off any other address. -/
theorem dropLocale_below_of_not_joinable (h : ¬Joinable locales base path) :
    dropLocale locales (below base path) = path := by
  simp only [Joinable, not_or, not_exists] at h
  obtain ⟨hroot, hbelow, hlocale⟩ := h
  rw [below_of_not_liesBelow hbelow, dropLocale_of_not_hasLocale hlocale, if_neg]
  rintro rfl
  exact hroot (Or.inr ⟨[], rfl⟩)

/-! ## What is put behind a locale -/

/-- A segment ends before the text: nothing is left, or it goes on with a slash or with the mark of a query. -/
def EndsSegment (tail : List Char) : Prop := Rooted tail ∨ ∃ more, tail = '?' :: more

/-- What a query adds to an address. -/
def queryPart (query : Option Query) : List Char :=
  match (query.map Query.toText).getD [] with
  | [] => []
  | q => '?' :: q

theorem endsSegment_cons_iff {c : Char} {tail : List Char} : EndsSegment (c :: tail) ↔ c = '/' ∨ c = '?' := by
  simp [EndsSegment, Rooted]

theorem endsSegment_append_queryPart {tail : List Char} (query : Option Query) :
    EndsSegment (tail ++ queryPart query) ↔ EndsSegment tail := by
  cases tail with
  | nil =>
    refine iff_of_true ?_ (Or.inl (Or.inl rfl))
    rw [List.nil_append, queryPart]
    split
    · exact Or.inl (Or.inl rfl)
    · exact Or.inr ⟨_, rfl⟩
  | cons c tail => rw [List.cons_append, endsSegment_cons_iff, endsSegment_cons_iff]

section

variable {path base locale : String}

theorem relocate_eq (path locale : String) (locales : List String) (base : Option String) (query : Option Query) :
    relocate path locale locales base query =
      "/" ++ locale ++ String.ofList ((strip path locales base).toList ++ queryPart query) := by
  rw [String.ofList_append, String.ofList_toList, ← String.append_assoc, relocate, queryPart]
  cases (query.map Query.toText).getD [] with
  | nil => exact (String.append_empty).symm
  | cons c q =>
    rw [String.ofList_cons, ← String.append_assoc]
    rfl

/-- **What is left of an address can be put behind another one** exactly if the address itself is empty or begins with a
slash, or lies below the base, or begins with a locale; any other address is left as it is. So the locale that an
address is switched to is a whole segment exactly for these addresses, and for one that begins like a query. -/
theorem rooted_strip_iff (path : String) (locales : List String) (base : Option String) :
    let joinable := Joinable locales ((base.map String.toList).getD []) path.toList
    (Rooted (strip path locales base).toList ↔ joinable) ∧
    (¬joinable → strip path locales base = path) ∧
    ∀ (locale : String) (query : Option Query), ∃ tail,
      relocate path locale locales base query = "/" ++ locale ++ String.ofList tail ∧
      (EndsSegment tail ↔ joinable ∨ ∃ more, path.toList = '?' :: more) := by
  intro joinable
  have hsame : ¬joinable → strip path locales base = path := fun h => by
    rw [strip, dropLocale_below_of_not_joinable h, String.ofList_toList]
  have hroot : Rooted (strip path locales base).toList ↔ joinable := by
    refine ⟨fun hr => ?_, fun h => ?_⟩
    · by_contra h
      rw [hsame h] at hr
      exact h (Or.inl hr)
    · rw [strip, String.toList_ofList]
      exact h.rooted
  refine ⟨hroot, hsame, fun locale query => ⟨_, relocate_eq path locale locales base query, ?_⟩⟩
  rw [endsSegment_append_queryPart, EndsSegment, hroot]
  refine or_congr_right' fun h => ?_
  rw [hsame h]

/-- An address without a slash before it runs into the locale that it is switched to. -/
theorem bare_address_runs_on :
    strip "about" ["en", "fr"] none = "about" ∧ ¬Rooted "about".toList ∧
      relocate "about" "fr" ["en", "fr"] none none = "/frabout" ∧
      ∀ tail, "/frabout" = "/" ++ "fr" ++ String.ofList tail → ¬EndsSegment tail := by
  have habout : ¬EndsSegment "about".toList := by
    rw [show "about".toList = 'a' :: "bout".toList from rfl, endsSegment_cons_iff]
    decide
  refine ⟨by decide +kernel, fun h => habout (Or.inl h), by decide +kernel, fun tail htail => ?_⟩
  have hlist := congrArg String.toList htail
  rw [String.toList_append, @String.toList_ofList tail] at hlist
  have hfr : "/fr".toList ++ "about".toList = "/fr".toList ++ tail := hlist
  rwa [← List.append_cancel_left hfr]

end

/-! ## A slash at the end of a base -/

section

variable {path base : List Char}

theorem trimSlashes_concat_slash (base : List Char) : trimSlashes (base ++ ['/']) = trimSlashes base :=
  List.rdropWhile_concat_pos _ _ _ (decide_eq_true rfl)

/-- With a slash at its end a base takes the same off every address but the base itself. -/
theorem below_concat_slash (hne : base ≠ []) (hend : base.getLast? ≠ some '/') :
    below (base ++ ['/']) path = if path = base then path else below base path := by
  have htrim : trimSlashes (base ++ ['/']) = base := (trimSlashes_concat_slash base).trans (trimSlashes_eq_self hend)
  have hslash : LiesBelow (base ++ ['/']) path ↔ base ++ ['/'] <+: path := by
    rw [LiesBelow, htrim]
    constructor
    · rintro ⟨-, rfl | h⟩
      · exact List.prefix_rfl
      · exact h
    · exact fun h => ⟨List.concat_ne_nil _ _, Or.inr h⟩
  by_cases hpath : path = base
  · -- the base is shorter than the base with a slash
    rw [if_pos hpath]
    refine below_of_not_liesBelow fun h => ?_
    have hlength := (hslash.1 h).length_le
    rw [hpath, List.length_append, List.length_singleton] at hlength
    omega
  · rw [if_neg hpath]
    have hiff : LiesBelow (base ++ ['/']) path ↔ LiesBelow base path := by
      rw [hslash, LiesBelow, trimSlashes_eq_self hend]
      simp only [hpath, false_or, hne, ne_eq, not_false_eq_true, true_and]
    by_cases h : LiesBelow base path
    · rw [below_of_liesBelow h, below_of_liesBelow (hiff.2 h), trimSlashes_concat_slash]
    · rw [below_of_not_liesBelow h, below_of_not_liesBelow (mt hiff.1 h)]

theorem dropLocale_nil (locales : List String) : dropLocale locales [] = [] := by simp [dropLocale, Text.cutAt?]

/-- Nothing is left of an address exactly if it is a locale alone. -/
theorem dropLocale_eq_nil_iff (hne : path ≠ []) (hslash : path ≠ ['/']) :
    dropLocale locales path = [] ↔ HasLocale locales path [] := by
  refine ⟨fun h => ?_, dropLocale_of_hasLocale⟩
  by_contra hno
  by_cases hlocale : ∃ rest, HasLocale locales path rest
  · obtain ⟨rest, hrest⟩ := hlocale
    rw [dropLocale_of_hasLocale hrest] at h
    exact hno (h ▸ hrest)
  · rw [dropLocale_of_not_hasLocale (not_exists.1 hlocale), if_neg hslash] at h
    exact hne h

end

section

variable {path base : String}

theorem strip_concat_slash (hne : base ≠ "") (hend : base.toList.getLast? ≠ some '/') :
    strip path locales (some (base ++ "/")) =
      if path = base then strip base locales none else strip path locales (some base) := by
  have hne' : base.toList ≠ [] := fun h => hne (String.toList_eq_nil_iff.1 h)
  have hslash : (base ++ "/").toList = base.toList ++ ['/'] := String.toList_append
  simp only [strip, Option.map_some, Option.getD_some, hslash, below_concat_slash hne' hend, String.toList_inj]
  split
  · next h => rw [h, ← strip_none, strip]
  · rfl

/-- Nothing is left of a base. -/
theorem strip_base (hne : base ≠ "") (hend : base.toList.getLast? ≠ some '/') :
    strip base locales (some base) = "" := by
  have h : strip (base ++ "") locales (some base) = strip "" locales none := strip_append hne hend (Or.inl rfl)
  rw [String.append_empty] at h
  rw [h, strip_none, String.toList_empty, dropLocale_nil, String.ofList_nil]

/-- An address is switched to the same exactly if the same is left of it. -/
theorem relocate_inj {path' locale : String} {base base' : Option String} {query : Option Query} :
    relocate path locale locales base query = relocate path' locale locales base' query ↔
      strip path locales base = strip path' locales base' := by
  refine ⟨fun h => ?_, fun h => relocate_congr h locale query⟩
  rw [relocate_eq, relocate_eq] at h
  have hlist := congrArg String.toList h
  simp only [String.toList_append, String.toList_ofList] at hlist
  exact String.toList_inj.1 (List.append_cancel_right (List.append_cancel_left hlist))

/-- **A slash at the end of a base does not matter** but for the base itself as an address. With the base as it is
nothing is left of that address, and with a slash behind the base it is not below the base, so that at most a locale is
taken off it: the same only if it is a locale and nothing else. -/
theorem strip_concat_slash_iff (hne : base ≠ "") (hend : base.toList.getLast? ≠ some '/') (path : String)
    (locales : List String) :
    let same := path = base → HasLocale locales base.toList []
    (strip path locales (some base) = strip path locales (some (base ++ "/")) ↔ same) ∧
    (∀ (locale : String) (query : Option Query),
      relocate path locale locales (some base) query = relocate path locale locales (some (base ++ "/")) query ↔ same) ∧
    strip base locales (some base) = "" ∧ strip base locales (some (base ++ "/")) = strip base locales none := by
  intro same
  have hself : strip base locales (some (base ++ "/")) = strip base locales none := by
    rw [strip_concat_slash hne hend, if_pos rfl]
  have hsame : strip path locales (some base) = strip path locales (some (base ++ "/")) ↔ same := by
    by_cases hpath : path = base
    · have hslash : base.toList ≠ ['/'] := fun h => hend (by rw [h]; rfl)
      have hne' : base.toList ≠ [] := fun h => hne (String.toList_eq_nil_iff.1 h)
      rw [hpath, hself, strip_base hne hend, strip_none, eq_comm, String.ofList_eq_empty_iff,
        dropLocale_eq_nil_iff hne' hslash]
      exact ⟨fun h _ => h, fun h => h hpath⟩
    · rw [strip_concat_slash hne hend, if_neg hpath]
      exact iff_of_true rfl fun h => absurd h hpath
  exact ⟨hsame, fun locale query => relocate_inj.trans hsame, strip_base hne hend, hself⟩

/-- A page below a base, with two slashes behind its locale, and a base that is a locale. -/
theorem strip_concat_slash_iff_docs :
    let locales := ["en", "fr"]
    "/docs" ≠ "" ∧ "/docs".toList.getLast? ≠ some '/' ∧ "/en" ≠ "" ∧ "/en".toList.getLast? ≠ some '/' ∧
      strip "/docs/fr//x" locales (some "/docs") = strip "/docs/fr//x" locales (some ("/docs" ++ "/")) ∧
      strip "/docs/fr//x" locales (some "/docs") = "//x" ∧
      relocate "/docs/fr//x" "en" locales (some "/docs") (some (.text "?q=1")) =
        relocate "/docs/fr//x" "en" locales (some ("/docs" ++ "/")) (some (.text "?q=1")) ∧
      strip "/en" locales (some "/en") = strip "/en" locales (some ("/en" ++ "/")) := by
  intro locales
  have hne : "/docs" ≠ "" := by decide
  have hend : "/docs".toList.getLast? ≠ some '/' := by decide +kernel
  have hneEn : "/en" ≠ "" := by decide
  have hendEn : "/en".toList.getLast? ≠ some '/' := by decide +kernel
  have hpath : "/docs/fr//x" ≠ "/docs" := by decide +kernel
  have hlocale : HasLocale locales "/en".toList [] :=
    ⟨['/'], ['e', 'n'], ⟨rfl, List.forall_mem_singleton.2 rfl, by decide, Or.inl rfl⟩, by decide⟩
  obtain ⟨hstrip, hrelocate, -⟩ := strip_concat_slash_iff hne hend "/docs/fr//x" locales
  refine ⟨hne, hend, hneEn, hendEn, hstrip.2 fun h => absurd h hpath, by decide +kernel,
    (hrelocate "en" _).2 fun h => absurd h hpath, ?_⟩
  exact (strip_concat_slash_iff hneEn hendEn "/en" locales).1.2 fun _ => hlocale

/-- The page at the base itself: with a slash behind the base it is not taken off. -/
theorem base_is_kept_by_slash :
    let locales := ["en", "fr"]
    strip "/docs" locales (some "/docs") = "" ∧ strip "/docs" locales (some "/docs/") = "/docs" ∧
      relocate "/docs" "fr" locales (some "/docs") none = "/fr" ∧
      relocate "/docs" "fr" locales (some "/docs/") none = "/fr/docs" := by
  decide +kernel

end

end Phrasebook.Address
