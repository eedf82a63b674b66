import Phrasebook.Proofs.Plural.Partition

/-!
# What is looked at to make the contracts

The contracts of a grouping are made phrase by phrase, and the contract of a phrase from its leaves one by one.

* `Plural.byPhrase` has the leaves in this order. It rearranges them (`Plural.perm_byPhrase`).
* `Entry.fault?` is what keeps the template of a leaf from being read, and `Entry.findings` what is odd about it.
* `Contract.faultOf_ofGrouping`: the contracts are made unless some leaf has a fault, and the first such leaf in this
  order decides the fault.
* `Contract.findings_ofGrouping`: what is found on the way is what is odd about the leaves, one after the other.
-/

namespace Phrasebook

/-! ## Findings of audits -/

namespace Audit

variable {α β : Type}

theorem findings_bind_of_ok {x : Audit α} {a : α} (h : x.outcome = .ok a) (f : α → Audit β) :
    (x >>= f).findings = x.findings ++ (f a).findings := by
  obtain ⟨findings, outcome⟩ := x
  cases h
  rfl

/-- An audit of each item of a list that answers has found what the audits of the items have found. -/
theorem findings_mapM_of_ok {f : α → Audit β} : ∀ {xs : List α} {ys : List β}, (xs.mapM f).outcome = .ok ys →
    (xs.mapM f).findings = xs.flatMap fun x => (f x).findings := by
  intro xs
  induction xs with
  | nil => exact fun _ => rfl
  | cons x xs ih =>
    intro ys h
    rw [outcome_mapM, List.mapM_cons] at h
    obtain ⟨y, hy, h⟩ := bind_eq_ok_iff.1 h
    obtain ⟨rest, hrest, -⟩ := bind_eq_ok_iff.1 h
    rw [← outcome_mapM] at hrest
    rw [List.mapM_cons, findings_bind_of_ok hy, findings_bind_of_ok hrest, ih hrest, List.flatMap_cons]
    exact congrArg _ (List.append_nil _)

end Audit

/-! ## The order of inspection -/

/-- To take the items of a list key by key is to rearrange them. -/
theorem perm_flatMap_filter {α κ : Type} [DecidableEq κ] {f : α → κ} {keys : List κ} : ∀ {xs : List α}, keys.Nodup →
    (∀ x ∈ xs, f x ∈ keys) → (keys.flatMap fun key => xs.filter fun x => f x = key).Perm xs := by
  induction keys with
  | nil =>
    intro xs _ h
    rw [List.eq_nil_iff_forall_not_mem.2 fun x hx => absurd (h x hx) List.not_mem_nil]
    exact .nil
  | cons key keys ih =>
    intro xs hn h
    obtain ⟨hkey, hn⟩ := List.nodup_cons.1 hn
    -- the items of the other keys are among those that are not of the first one
    have hothers : (keys.flatMap fun other => xs.filter fun x => f x = other) =
        keys.flatMap fun other => (xs.filter fun x => ¬ f x = key).filter fun x => f x = other := by
      refine List.flatMap_congr fun other hother => ?_
      rw [List.filter_filter]
      refine List.filter_congr fun x _ => ?_
      have hne : other ≠ key := fun he => hkey (he ▸ hother)
      by_cases hx : f x = other <;> simp [hx, hne]
    have hrest : ∀ x ∈ xs.filter (fun x => ¬ f x = key), f x ∈ keys := by
      intro x hx
      obtain ⟨hmem, hne⟩ := List.mem_filter.1 hx
      exact List.mem_of_ne_of_mem (by simpa using hne) (h x hmem)
    rw [List.flatMap_cons, hothers]
    refine ((ih hn hrest).append_left _).trans ?_
    simpa using List.filter_append_perm (fun x => f x = key) xs

/-- What is found first in some lists one after the other is found first in the first list in which it is found. -/
theorem findSome?_flatMap {α β γ : Type} {f : α → List β} {p : β → Option γ} {q : α → Option γ} : ∀ {xs : List α},
    (∀ x ∈ xs, q x = (f x).findSome? p) → xs.findSome? q = (xs.flatMap f).findSome? p := by
  intro xs
  induction xs with
  | nil => exact fun _ => rfl
  | cons x xs ih =>
    intro h
    obtain ⟨hx, hxs⟩ := List.forall_mem_cons.1 h
    rw [List.findSome?_cons, List.flatMap_cons, List.findSome?_append, ← hx, ← ih hxs]
    cases q x <;> rfl

namespace Plural

/-- Leaves in the order in which they are looked at: phrase after phrase in order of first appearance, and the leaves of
each phrase in their order. -/
def byPhrase (entries : List Entry) : List Entry :=
  (phrases entries).eraseDups.flatMap fun key => leavesOf key entries

/-- **No leaf is looked at twice, and none is left out.** -/
theorem perm_byPhrase (entries : List Entry) : (byPhrase entries).Perm entries := by
  refine perm_flatMap_filter (firstSeen_eraseDups _).nodup fun entry he => ?_
  rw [List.mem_eraseDups]
  exact List.mem_map_of_mem he

end Plural

/-! ## The inspection of a leaf -/

/-- What keeps the template of a leaf from being read, as it is told: it is a text that is too long. -/
def Entry.fault? (limit : Int) (entry : Entry) : Option Fault :=
  match entry.value with
  | .text s => if limit < s.length then some (Fault.tooLong entry.path s.length limit).told else none
  | _ => none

/-- What is odd about the template of a leaf. -/
def Entry.findings (entry : Entry) : List Finding :=
  match entry.value with
  | .text s => (Template.ofText s).findings entry.path
  | _ => []

theorem Entry.faultOf_ofValue (limit : Int) (entry : Entry) :
    faultOf (Template.ofValue entry.path limit entry.value) = entry.fault? limit := by
  obtain ⟨path, value⟩ := entry
  cases value with
  | text s =>
    simp only [Template.ofValue, fault?]
    split <;> rfl
  | _ => rfl

namespace Contract

theorem faultOf_inspect (limit : Int) (entry : Entry) :
    faultOf (inspect limit entry.path entry.value).outcome = entry.fault? limit := by
  rw [outcome_inspect, entry.faultOf_ofValue]

theorem findings_inspect {limit : Int} (entry : Entry) {t : Template}
    (h : (inspect limit entry.path entry.value).outcome = .ok t) :
    (inspect limit entry.path entry.value).findings = entry.findings := by
  rw [outcome_inspect] at h
  unfold inspect
  rw [Audit.findings_bind_of_ok h, Audit.findings_bind_of_ok rfl]
  show [] ++ (t.findings entry.path ++ []) = _
  rw [List.nil_append, List.append_nil]
  obtain ⟨path, value⟩ := entry
  cases value with
  | text s =>
    simp only [Template.ofValue] at h
    split at h <;> cases h
    rfl
  | _ =>
    cases h
    rfl

/-! ## The inspection of a phrase -/

variable {limit : Int} {entries : List Entry}

/-- The contract of a family is made unless a variant has a fault, and the first such variant decides the fault. -/
theorem faultOf_ofFamily (limit : Int) (base : String) (variants : Plural.Variants) :
    faultOf (ofFamily limit base variants).outcome =
      (variants.map (Plural.variantLeaf base)).findSome? (Entry.fault? limit) := by
  unfold ofFamily
  rw [Audit.outcome_bind, faultOf_bind_of_answers _ fun _ _ => rfl, Audit.outcome_mapM, faultOf_mapM,
    List.findSome?_map]
  congr 1
  funext item
  exact faultOf_inspect limit (Plural.variantLeaf base item)

theorem findings_ofFamily {base : String} {variants : Plural.Variants} {contract : Contract}
    (h : (ofFamily limit base variants).outcome = .ok contract) :
    (ofFamily limit base variants).findings = (variants.map (Plural.variantLeaf base)).flatMap Entry.findings := by
  unfold ofFamily at h ⊢
  rw [Audit.outcome_bind] at h
  obtain ⟨templates, ht, -⟩ := bind_eq_ok_iff.1 h
  have hread := ht
  rw [Audit.outcome_mapM] at hread
  rw [Audit.findings_bind_of_ok ht, Audit.findings_mapM_of_ok ht, List.flatMap_map]
  show _ ++ [] = _
  rw [List.append_nil]
  refine List.flatMap_congr fun item hitem => ?_
  obtain ⟨t, -, ht⟩ := exists_of_forall₂ (mapM_eq_ok_iff.1 hread) hitem
  exact findings_inspect (Plural.variantLeaf base item) ht

/-- The contract of a phrase is made unless one of its leaves has a fault, and the first such leaf decides the fault. -/
theorem faultOf_ofKey (limit : Int) (hn : (entries.map Entry.path).Nodup)
    (hc : (Plural.Grouping.collect entries).clash? = none) {key : String}
    (hk : key ∈ (Plural.Grouping.collect entries).keys) :
    faultOf (ofKey limit (Plural.Grouping.collect entries) key).outcome =
      (Plural.leavesOf key entries).findSome? (Entry.fault? limit) := by
  unfold ofKey
  rcases Plural.leaves_of_phrase hn hc hk with ⟨variants, hf, hl⟩ | ⟨value, hf, ho, hl⟩
  · rw [hf, hl]
    exact faultOf_ofFamily limit key variants
  · rw [hf, hl, ho]
    show faultOf (inspect limit key value >>= _).outcome = _
    rw [Audit.outcome_bind, faultOf_bind_of_answers _ fun _ _ => rfl, List.findSome?_singleton]
    exact faultOf_inspect limit ⟨key, value⟩

theorem findings_ofKey (hn : (entries.map Entry.path).Nodup) (hc : (Plural.Grouping.collect entries).clash? = none)
    {key : String} (hk : key ∈ (Plural.Grouping.collect entries).keys) {contract : Contract}
    (h : (ofKey limit (Plural.Grouping.collect entries) key).outcome = .ok contract) :
    (ofKey limit (Plural.Grouping.collect entries) key).findings =
      (Plural.leavesOf key entries).flatMap Entry.findings := by
  unfold ofKey at h ⊢
  rcases Plural.leaves_of_phrase hn hc hk with ⟨variants, hf, hl⟩ | ⟨value, hf, ho, hl⟩
  · simp only [hf] at h ⊢
    rw [hl]
    exact findings_ofFamily h
  · simp only [hf, ho, Option.getD_some, Audit.outcome_bind] at h ⊢
    obtain ⟨t, ht, -⟩ := bind_eq_ok_iff.1 h
    rw [hl, Audit.findings_bind_of_ok ht, List.flatMap_singleton]
    exact (List.append_nil _).trans (findings_inspect ⟨key, value⟩ ht)

/-! ## The inspection of all phrases -/

/-- **The first leaf with a fault decides the fault**, in the order of inspection. -/
theorem faultOf_ofGrouping (limit : Int) (hn : (entries.map Entry.path).Nodup)
    (hc : (Plural.Grouping.collect entries).clash? = none) :
    faultOf (ofGrouping limit (Plural.Grouping.collect entries)).outcome =
      (Plural.byPhrase entries).findSome? (Entry.fault? limit) := by
  unfold ofGrouping Plural.byPhrase Plural.phrases
  rw [Audit.outcome_mapM, faultOf_mapM, ← Plural.Grouping.keys_collect]
  refine findSome?_flatMap fun key hk => ?_
  rw [Audit.outcome_bind, faultOf_bind_of_answers _ fun _ _ => rfl]
  exact faultOf_ofKey limit hn hc hk

/-- **What is found is what is odd about the leaves**, in the order of inspection. -/
theorem findings_ofGrouping (hn : (entries.map Entry.path).Nodup)
    (hc : (Plural.Grouping.collect entries).clash? = none) {contracts : Ordered String Contract}
    (h : (ofGrouping limit (Plural.Grouping.collect entries)).outcome = .ok contracts) :
    (ofGrouping limit (Plural.Grouping.collect entries)).findings =
      (Plural.byPhrase entries).flatMap Entry.findings := by
  have hread := h
  unfold ofGrouping at h hread ⊢
  rw [Audit.outcome_mapM] at hread
  rw [Audit.findings_mapM_of_ok h, Plural.byPhrase, Plural.phrases, ← Plural.Grouping.keys_collect, List.flatMap_assoc]
  refine List.flatMap_congr fun key hk => ?_
  obtain ⟨item, -, hitem⟩ := exists_of_forall₂ (mapM_eq_ok_iff.1 hread) hk
  rw [Audit.outcome_bind] at hitem
  obtain ⟨contract, hcontract, -⟩ := bind_eq_ok_iff.1 hitem
  rw [Audit.findings_bind_of_ok hcontract, ← findings_ofKey hn hc hk hcontract]
  exact List.append_nil _

end Contract

end Phrasebook
