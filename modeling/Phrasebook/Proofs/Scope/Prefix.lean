import Phrasebook.Proofs.Ordered
import Phrasebook.Proofs.Plural.Grouping
import Phrasebook.Proofs.Text.Cutting

/-!
# Paths below a scope

`Path.under scope path` is a path seen from outside of a scope. Everything that is made of paths goes along with it.

* `Path.below_iff`: a path lies below another one if it has more keys than that.
* `Path.scopes_map_under`: the scopes of some paths are seen after the scope itself.
* `Plural.splitVariant?_under` and `Plural.suffixFindings_under`: a path is split, and found odd, as it is without the
  scope, even if the scope has a `#`.
* `Plural.Grouping.collect_map_under`: leaves are sorted as they are without the scope.
-/

namespace Phrasebook

/-! ## Paths and their scopes -/

namespace Path

/-- The path outside of a scope of what is at a path in it. -/
def under (scope path : String) : String := scope ++ "." ++ path

variable {scope : String}

@[simp] theorem toList_under (scope path : String) :
    (under scope path).toList = scope.toList ++ '.' :: path.toList := by
  simp [under]

theorem under_injective (scope : String) : Function.Injective (under scope) := by
  intro path path' h
  have hlists := congrArg String.toList h
  rw [toList_under, toList_under] at hlists
  exact String.toList_inj.1 (List.cons.inj (List.append_cancel_left hlists)).2

theorem under_ne_self (scope path : String) : under scope path ≠ scope := by
  intro h
  have hlengths := congrArg List.length (congrArg String.toList h)
  rw [toList_under, List.length_append, List.length_cons] at hlengths
  omega

theorem under_ne_empty (scope path : String) : under scope path ≠ "" := by
  intro h
  have hlist := congrArg String.toList h
  rw [toList_under] at hlist
  simp at hlist

theorem under_under (scope inner path : String) : under (under scope inner) path = under scope (under inner path) := by
  simp [under, String.append_assoc]

theorem isKey_iff {key : String} : isKey key = true ↔ key ≠ "" ∧ '.' ∉ key.toList := by
  simp [isKey]

/-- A key that is given relative to a scope. -/
theorem resolve_some (h : scope ≠ "") (key : String) : resolve key (some scope) = under scope key := by
  rw [resolve, if_neg h, under]

/-- A path below a scope, relative to it. -/
theorem relative?_under (h : scope ≠ "") {path : String} (hp : path ≠ "") :
    relative? (under scope path) (some scope) = some path := by
  have hcut : (under scope path).toList = (scope.toList ++ ['.']) ++ path.toList := by simp
  obtain ⟨c, cs, hl⟩ := List.exists_cons_of_ne_nil (mt String.toList_eq_nil_iff.1 hp)
  rw [relative?, if_neg h, hcut, Text.after?_append, hl]
  exact congrArg some (by rw [← hl, String.ofList_toList])

theorem join_singleton (key : String) : join [key] = key := by simp [join, Text.join]

theorem join_cons (key : String) {keys : List String} (h : keys ≠ []) : join (key :: keys) = under key (join keys) := by
  rw [← String.toList_inj, toList_under, join, join, String.toList_ofList, String.toList_ofList, List.map_cons]
  exact Text.join_cons '.' _ (by simpa using h)

theorem join_append {before more : List String} (hb : before ≠ []) (hm : more ≠ []) :
    join (before ++ more) = under (join before) (join more) := by
  induction before with
  | nil => exact absurd rfl hb
  | cons key before ih =>
    rw [List.cons_append, join_cons key (List.append_ne_nil_of_right_ne_nil before hm)]
    cases before with
    | nil => rw [List.nil_append, join_singleton]
    | cons key' before =>
      rw [ih (List.cons_ne_nil _ _), join_cons key (List.cons_ne_nil _ _), under_under]

theorem segments_ne_nil (path : String) : segments path ≠ [] := by
  rw [segments, ne_eq, List.map_eq_nil_iff]
  exact Text.fields_ne_nil '.' path.toList

/-- What stands between the dots of a path is a key, if it is not empty. -/
theorem isKey_of_mem_segments {key path : String} (h : key ∈ segments path) (hne : key ≠ "") : isKey key = true := by
  obtain ⟨field, hfield, rfl⟩ := List.mem_map.1 h
  refine isKey_iff.2 ⟨hne, ?_⟩
  rw [String.toList_ofList]
  exact Text.not_mem_of_mem_fields hfield

/-- A path lies below another one, which is then a scope of it. -/
def Below (above path : String) : Prop := ∃ rest, path = under above rest

/-- A path lies below another one exactly if its keys are those of the other one and more. -/
theorem below_iff {above path : String} :
    Below above path ↔ ∃ more, more ≠ [] ∧ segments path = segments above ++ more := by
  constructor
  · rintro ⟨rest, rfl⟩
    exact ⟨segments rest, segments_ne_nil rest, segments_append above rest⟩
  · rintro ⟨more, hm, hsegments⟩
    refine ⟨join more, ?_⟩
    rw [← join_segments path, hsegments, join_append (segments_ne_nil above) hm, join_segments]

theorem segments_under (h : isKey scope = true) (path : String) :
    segments (under scope path) = scope :: segments path := by
  rw [under, segments_append, segments, Text.fields_of_not_mem (isKey_iff.1 h).2]
  simp

/-- The keys of a path begin with those of another one exactly if it is the same or lies below it. -/
theorem prefix_segments_iff {above path : String} :
    segments above <+: segments path ↔ above = path ∨ Below above path := by
  rw [below_iff]
  constructor
  · rintro ⟨more, hmore⟩
    by_cases hnil : more = []
    · rw [hnil, List.append_nil] at hmore
      exact Or.inl (by rw [← join_segments above, hmore, join_segments])
    · exact Or.inr ⟨more, hnil, hmore.symm⟩
  · rintro (rfl | ⟨more, -, hmore⟩)
    · exact List.prefix_refl _
    · exact ⟨more, hmore.symm⟩

/-- The scopes of a path below a scope are the scope itself and then those of the path. -/
theorem ancestors_under (h : isKey scope = true) (path : String) :
    ancestors (under scope path) = scope :: (ancestors path).map (under scope) := by
  obtain ⟨key, keys, hkeys⟩ : ∃ key keys, segments path = key :: keys :=
    List.exists_cons_of_ne_nil (segments_ne_nil path)
  simp only [ancestors, segments_under h, hkeys, List.length_cons, Nat.add_sub_cancel, List.range_succ_eq_map,
    List.map_cons, List.map_map, List.take_succ_cons, List.take_zero, join_singleton]
  refine congrArg _ (List.map_congr_left fun n _ => ?_)
  exact join_cons scope (List.cons_ne_nil _ _)

end Path

section EraseDups

variable {α β γ : Type} [DecidableEq α] [DecidableEq β]

/-- Different members stay different under a map without collisions. -/
theorem eraseDups_map {f : α → β} (hf : Function.Injective f) (xs : List α) :
    (xs.map f).eraseDups = xs.eraseDups.map f := by
  induction xs using List.reverseRecOn with
  | nil => rfl
  | append_singleton xs x ih =>
    rw [List.map_append, List.map_singleton, eraseDups_concat, eraseDups_concat, ih]
    by_cases hx : x ∈ xs
    · rw [if_pos hx, if_pos (List.mem_map_of_mem hx)]
    · rw [if_neg hx, if_neg (mt (List.mem_map_of_injective hf).1 hx), List.map_append, List.map_singleton]

/-- A member that begins every part comes first, and only once. -/
theorem eraseDups_flatMap_cons {a : α} {f : γ → List α} {xs : List γ} (hne : xs ≠ []) (ha : ∀ x, a ∉ f x) :
    (xs.flatMap fun x => a :: f x).eraseDups = a :: (xs.flatMap f).eraseDups := by
  have hfilter : ∀ xs : List γ, (xs.flatMap fun x => a :: f x).filter (fun b => !b == a) = xs.flatMap f := by
    intro xs
    induction xs with
    | nil => rfl
    | cons x xs ih =>
      have hpart : (f x).filter (fun b => !b == a) = f x := by
        refine List.filter_eq_self.2 fun b hb => ?_
        have hne : b ≠ a := fun h => ha x (h ▸ hb)
        simpa using hne
      rw [List.flatMap_cons, List.filter_append, ih, List.filter_cons, List.flatMap_cons, hpart]
      simp
  obtain ⟨x, xs, rfl⟩ := List.exists_cons_of_ne_nil hne
  have hpart := hfilter (x :: xs)
  rw [List.flatMap_cons, List.cons_append, List.filter_cons, if_neg (by simp)] at hpart
  rw [List.flatMap_cons, List.cons_append, List.eraseDups_cons, hpart]

end EraseDups

namespace Path

/-- The scopes of some paths below a scope are the scope itself, if there is a path, and then theirs. -/
theorem scopes_map_under {scope : String} (h : isKey scope = true) {paths : List String} (hne : paths ≠ []) :
    scopes (paths.map (under scope)) = scope :: (scopes paths).map (under scope) := by
  have hself : ∀ path, scope ∉ (ancestors path).map (under scope) := by
    intro path hmem
    obtain ⟨other, -, ho⟩ := List.mem_map.1 hmem
    exact under_ne_self scope other ho
  rw [scopes, scopes, List.flatMap_map, ← eraseDups_map (under_injective scope), List.map_flatMap,
    ← eraseDups_flatMap_cons hne hself]
  exact congrArg _ (List.flatMap_congr fun path _ => ancestors_under h path)

end Path

/-! ## Findings and leaves -/

/-- The leaf outside of a scope. -/
def Entry.under (scope : String) (entry : Entry) : Entry := ⟨Path.under scope entry.path, entry.value⟩

namespace Finding

/-- The finding outside of a scope. -/
def under (scope : String) : Finding → Finding
  | baselessVariant path category => baselessVariant (Path.under scope path) category
  | nearVariant path token => nearVariant (Path.under scope path) token
  | nearDirective path => nearDirective (Path.under scope path)
  | blankPlaceholders path count => blankPlaceholders (Path.under scope path) count
  | repeatedParameter path name => repeatedParameter (Path.under scope path) name

@[simp] theorem kind_under (scope : String) (f : Finding) : (f.under scope).kind = f.kind := by cases f <;> rfl

@[simp] theorem message_under (scope : String) (f : Finding) : (f.under scope).message = f.message := by
  cases f <;> rfl

@[simp] theorem path_under (scope : String) (f : Finding) : (f.under scope).path = Path.under scope f.path := by
  cases f <;> rfl

end Finding

/-! ## Sorting leaves -/

namespace Plural

variable {scope : String}

/-- No category has a dot in its name. -/
theorem Category.ofName?_of_dot {token : List Char} (h : '.' ∈ token) : ofName? (String.ofList token) = none := by
  cases hname : ofName? (String.ofList token) with
  | none => rfl
  | some category =>
    have htoken : token = category.name.toList := by
      rw [← ofName?_eq_some_iff.1 hname, String.toList_ofList]
    rw [htoken] at h
    cases category <;> exact absurd h (by decide)

/-- A path is cut at its last `#`, behind the scope. If it has none, it is not cut, or what is behind the cut has the
dot that follows the scope. -/
theorem cut_under (scope path : String) :
    (∃ base token, Text.cutAtLast? '#' path.toList = some (base, token) ∧
        Text.cutAtLast? '#' (Path.under scope path).toList = some (scope.toList ++ '.' :: base, token)) ∨
      Text.cutAtLast? '#' path.toList = none ∧
        ∀ base token, Text.cutAtLast? '#' (Path.under scope path).toList = some (base, token) → '.' ∈ token := by
  rw [Path.toList_under]
  cases h : Text.cutAtLast? '#' path.toList with
  | some cut =>
    obtain ⟨base, token⟩ := cut
    refine Or.inl ⟨base, token, rfl, ?_⟩
    have hcut := Text.cutAtLast?_append h (scope.toList ++ ['.'])
    simpa using hcut
  | none =>
    exact Or.inr ⟨rfl, fun base token => Text.mem_of_cutAtLast?_append (Text.cutAtLast?_eq_none_iff.1 h) (by decide)⟩

theorem variantPath_under (scope base : String) (category : Category) :
    variantPath (Path.under scope base) category = Path.under scope (variantPath base category) := by
  simp [variantPath, Path.under, String.append_assoc]

/-- A path below a scope is that of a variant exactly if it is one without the scope. -/
theorem splitVariant?_under (scope path : String) :
    splitVariant? (Path.under scope path) =
      (splitVariant? path).map fun (base, category) => (Path.under scope base, category) := by
  unfold splitVariant?
  rcases cut_under scope path with ⟨base, token, hcut, hunder⟩ | ⟨hcut, hunder⟩
  · have hguard : ((scope.toList ++ '.' :: base).isEmpty || (scope.toList ++ '.' :: base).getLast? = some '.') =
        (base.isEmpty || base.getLast? = some '.') := by
      cases base with
      | nil => simp
      | cons c cs => simp [List.getLast?_append]
    have hbase : String.ofList (scope.toList ++ '.' :: base) = Path.under scope (String.ofList base) := by
      rw [← String.toList_inj, String.toList_ofList, Path.toList_under, String.toList_ofList]
    simp only [hcut, hunder, Option.bind_eq_bind, Option.bind_some, hguard, hbase]
    cases Category.ofName? (String.ofList token) with
    | none => rfl
    | some category =>
      rw [Option.bind_some, Option.bind_some]
      split <;> rfl
  · rw [hcut]
    cases hcut' : Text.cutAtLast? '#' (Path.under scope path).toList with
    | none => rfl
    | some cut =>
      simp [Category.ofName?_of_dot (hunder cut.1 cut.2 hcut')]

/-- What is odd about the end of a path is odd about it below a scope. -/
theorem suffixFindings_under (scope path : String) :
    suffixFindings (Path.under scope path) = (suffixFindings path).map (Finding.under scope) := by
  unfold suffixFindings
  rcases cut_under scope path with ⟨base, token, hcut, hunder⟩ | ⟨hcut, hunder⟩
  · rw [hcut, hunder]
    by_cases hdot : token.contains '.' = true
    · simp only [hdot, if_true, List.map_nil]
    · simp only [hdot]
      cases Category.ofName? (String.ofList token) with
      | some category => rfl
      | none => cases resemblesCategory token <;> rfl
  · rw [hcut]
    cases hcut' : Text.cutAtLast? '#' (Path.under scope path).toList with
    | none => rfl
    | some cut => simp [hunder cut.1 cut.2 hcut']

namespace Grouping

/-- The grouping outside of a scope. -/
def under (scope : String) (g : Grouping) : Grouping where
  ordinary := g.ordinary.mapKeys (Path.under scope)
  families := g.families.mapKeys (Path.under scope)
  keys := g.keys.map (Path.under scope)

theorem addKey_under (key : String) (keys : List String) :
    addKey (Path.under scope key) (keys.map (Path.under scope)) = (addKey key keys).map (Path.under scope) := by
  unfold addKey
  by_cases h : key ∈ keys
  · rw [if_pos h, if_pos (List.mem_map_of_mem h)]
  · rw [if_neg h, if_neg (mt (List.mem_map_of_injective (Path.under_injective scope)).1 h), List.map_append,
      List.map_singleton]

/-- Adding a leaf commutes with looking at it from outside of a scope. -/
theorem add_under (g : Grouping) (entry : Entry) :
    (g.under scope).add (entry.under scope) = (g.add entry).under scope := by
  have hinj := Path.under_injective scope
  unfold add
  rw [Entry.under, splitVariant?_under]
  cases splitVariant? entry.path with
  | none => simp only [Option.map_none, under, Ordered.mapKeys_put hinj, addKey_under]
  | some split => simp only [Option.map_some, under, Ordered.mapKeys_put hinj, Ordered.get?_mapKeys hinj, addKey_under]

theorem collect_map_under (entries : List Entry) :
    collect (entries.map (Entry.under scope)) = (collect entries).under scope := by
  induction entries using List.reverseRecOn with
  | nil => rfl
  | append_singleton entries entry ih =>
    rw [List.map_append, List.map_singleton, collect_concat, collect_concat, ih, add_under]

theorem clash?_under (g : Grouping) : (g.under scope).clash? = g.clash?.map (Path.under scope) := by
  have hinj := Path.under_injective scope
  unfold clash?
  simp only [under, List.find?_map, Function.comp_def, Ordered.has_mapKeys hinj]

theorem findings_map_under (entries : List Entry) :
    findings (entries.map (Entry.under scope)) = (findings entries).map (Finding.under scope) := by
  rw [findings, findings, List.flatMap_map, List.map_flatMap]
  refine List.flatMap_congr fun entry _ => ?_
  rw [Entry.under, splitVariant?_under, Option.isSome_map, suffixFindings_under]
  split <;> rfl

end Grouping

end Plural

end Phrasebook
