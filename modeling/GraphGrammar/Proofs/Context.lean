import GraphGrammar.Proofs.Copy
import GraphGrammar.Proofs.Outcome
import GraphGrammar.Rule.Context

/-!
# The context pairs L with R

The correspondences of a rule come from its context: going through the
elements of K, the elements of L and R that bear the name of one are paired.
`Pairs` says what comes out, and `Context.pairs_of_relate` that nothing else
does.

The same relation is used for nodes, arcs and hyperarcs, and `Pairs` is therefore about
registries of any kind. Names come in as a predicate, since a context that was given and one that
was derived say in different ways which names they have.
-/

namespace GraphGrammar

open Attributed

/-! ## Correspondences

A correspondence is two lists of pairs, one to look up from the left and one from the right. As
long as no value is paired twice, each look-up sees the pair that was put in for it. -/

namespace Correspondence

variable {α β : Type} [DecidableEq α] [DecidableEq β] {c : Correspondence α β}

/-- A look-up finds the first entry if this has the key. -/
theorem lookup_cons_ite {γ δ : Type} [DecidableEq γ] (first key : γ) (value : δ)
    (rest : List (γ × δ)) :
    ((first, value) :: rest).lookup key
      = if key = first then some value else rest.lookup key := by
  rw [List.lookup_cons]
  by_cases h : key = first
  · rw [if_pos h, h, beq_self_eq_true]
  · rw [if_neg h, beq_false_of_ne h]

/-- Pairing two values that are not paired yet. -/
theorem insert_of_unpaired {a : α} {b : β} (ha : c.right? a = none) (hb : c.left? b = none) :
    c.insert a b = ⟨(a, b) :: c.forward, (b, a) :: c.backward⟩ := by
  unfold insert insert?
  rw [ha, hb]
  rfl

/-- The values on the left keep their partners. -/
theorem right?_insert {a : α} {b : β} (ha : c.right? a = none) (hb : c.left? b = none) (x : α) :
    (c.insert a b).right? x = if x = a then some b else c.right? x := by
  rw [insert_of_unpaired ha hb]
  exact lookup_cons_ite a x b c.forward

/-- The values on the right keep their partners. -/
theorem left?_insert {a : α} {b : β} (ha : c.right? a = none) (hb : c.left? b = none) (y : β) :
    (c.insert a b).left? y = if y = b then some a else c.left? y := by
  rw [insert_of_unpaired ha hb]
  exact lookup_cons_ite b y a c.backward

end Correspondence

/-- A correspondence pairs the elements of L and R that bear one of some names,
and none else. -/
structure Pairs {κ : Kind} {α : Type} [Attributed α] (l r : Registry κ α)
    (named : Name → Prop) (c : Correspondence (Key κ) (Key κ)) : Prop where
  right?_iff : ∀ lKey rKey, c.right? lKey = some rKey ↔
    ∃ name, named name ∧ l.find? name = some lKey ∧ r.find? name = some rKey
  left?_iff : ∀ lKey rKey, c.left? rKey = some lKey ↔ c.right? lKey = some rKey

namespace Pairs

variable {κ : Kind} {α : Type} [Attributed α] {l r : Registry κ α} {named : Name → Prop}
  {c : Correspondence (Key κ) (Key κ)}

/-- Two elements of R are not paired with one element of L. -/
theorem left?_injective (h : Pairs l r named c) {lKey rKey rKey' : Key κ}
    (hl : c.left? rKey = some lKey) (hl' : c.left? rKey' = some lKey) : rKey = rKey' := by
  have hr := (h.left?_iff lKey rKey).1 hl
  rw [(h.left?_iff lKey rKey').1 hl'] at hr
  exact (Option.some.inj hr).symm

/-- The elements of a pair bear one name. -/
theorem exists_elements (h : Pairs l r named c) (hl : Graph.Indexed l) (hr : Graph.Indexed r)
    {lKey rKey : Key κ} (hpair : c.right? lKey = some rKey) :
    ∃ a b, l.get? lKey = some a ∧ r.get? rKey = some b ∧ nameOf a = nameOf b := by
  obtain ⟨name, _, hfind, hfind'⟩ := (h.right?_iff lKey rKey).1 hpair
  obtain ⟨a, ha, hname⟩ := hl.exists_of_find? hfind
  obtain ⟨b, hb, hname'⟩ := hr.exists_of_find? hfind'
  exact ⟨a, b, ha, hb, hname.trans hname'.symm⟩

/-- Pairing the elements of one more name. Since the name was not paired before, neither key has
a partner yet, as in an indexed registry a key has one name. So the new pair takes nothing away
from another. -/
theorem insert (h : Pairs l r named c) (hl : Graph.Indexed l) (hr : Graph.Indexed r)
    {name : Name} {lKey rKey : Key κ} (hnew : ¬named name) (hfind : l.find? name = some lKey)
    (hfind' : r.find? name = some rKey) :
    Pairs l r (fun other => named other ∨ other = name) (c.insert lKey rKey) := by
  have hleft : ∀ other, l.find? other = some lKey → other = name := fun _ hother =>
    hl.eq_of_find? hother hfind
  have hright : ∀ other, r.find? other = some rKey → other = name := fun _ hother =>
    hr.eq_of_find? hother hfind'
  -- neither key has a partner: its name would be one of those paired before
  have hunpaired : c.right? lKey = none := by
    refine Option.eq_none_iff_forall_ne_some.2 fun other hpair => hnew ?_
    obtain ⟨name', hnamed, hfound, _⟩ := (h.right?_iff lKey other).1 hpair
    exact hleft name' hfound ▸ hnamed
  have hunpaired' : c.left? rKey = none := by
    refine Option.eq_none_iff_forall_ne_some.2 fun other hpair => hnew ?_
    obtain ⟨name', hnamed, _, hfound⟩ :=
      (h.right?_iff other rKey).1 ((h.left?_iff other rKey).1 hpair)
    exact hright name' hfound ▸ hnamed
  constructor
  · intro x y
    rw [Correspondence.right?_insert hunpaired hunpaired']
    constructor
    · intro hpair
      split at hpair
      · rename_i hx
        cases hpair
        exact ⟨name, .inr rfl, hx ▸ hfind, hfind'⟩
      · obtain ⟨name', hnamed, hfound, hfound'⟩ := (h.right?_iff x y).1 hpair
        exact ⟨name', .inl hnamed, hfound, hfound'⟩
    · rintro ⟨name', hnamed | rfl, hfound, hfound'⟩
      · have hx : x ≠ lKey := fun hx => hnew (hleft name' (hx ▸ hfound) ▸ hnamed)
        rw [if_neg hx]
        exact (h.right?_iff x y).2 ⟨name', hnamed, hfound, hfound'⟩
      · rw [if_pos (Option.some.inj (hfound.symm.trans hfind)),
          Option.some.inj (hfound'.symm.trans hfind')]
  · intro x y
    rw [Correspondence.right?_insert hunpaired hunpaired',
      Correspondence.left?_insert hunpaired hunpaired']
    -- the look-ups from the two sides agree: both find the new pair, or neither does
    by_cases hx : x = lKey
    · by_cases hy : y = rKey
      · rw [if_pos hx, if_pos hy, hx, hy]
        exact iff_of_true rfl rfl
      · rw [if_pos hx, if_neg hy]
        refine iff_of_false (fun hpair => ?_) fun heq => hy (Option.some.inj heq).symm
        rw [h.left?_iff, hx, hunpaired] at hpair
        exact nomatch hpair
    · by_cases hy : y = rKey
      · rw [if_neg hx, if_pos hy]
        refine iff_of_false (fun heq => hx (Option.some.inj heq).symm) fun hpair => ?_
        rw [← h.left?_iff, hy, hunpaired'] at hpair
        exact nomatch hpair
      · rw [if_neg hx, if_neg hy]
        exact h.left?_iff x y

/-- Only the names that L and R share matter. -/
theorem congr (h : Pairs l r named c) {named' : Name → Prop}
    (hiff : ∀ name lKey rKey, l.find? name = some lKey → r.find? name = some rKey →
      (named name ↔ named' name)) : Pairs l r named' c where
  right?_iff lKey rKey := by
    rw [h.right?_iff]
    constructor
    · rintro ⟨name, hnamed, hl, hr⟩
      exact ⟨name, (hiff name lKey rKey hl hr).1 hnamed, hl, hr⟩
    · rintro ⟨name, hnamed, hl, hr⟩
      exact ⟨name, (hiff name lKey rKey hl hr).2 hnamed, hl, hr⟩
  left?_iff := h.left?_iff

end Pairs

/-! ## Relating L and R through the context

The induction is on the elements of K. Their names are distinct, so none of them finds its
partners taken. -/

namespace Context

variable {κ : Kind} {α : Type} [Attributed α]

/-- Looking at one more element of the context pairs the elements of its name, if there are some.
A name that is missing on one side is passed over, and it pairs nothing. That a negative element
is refused is what makes every element of L that is paired a positive one. -/
theorem pairs_relate_step {l r : Registry κ α} {negative : Key κ → Bool}
    {c d : Correspondence (Key κ) (Key κ)} {named : Name → Prop} {name : Name}
    (hl : Graph.Indexed l) (hr : Graph.Indexed r) (hnew : ¬named name)
    (hc : Pairs l r named c ∧ ∀ lKey rKey, c.right? lKey = some rKey → negative lKey = false)
    (h : (match l.find? name, r.find? name with
      | some lKey, some rKey =>
        if negative lKey then Outcome.fail (RuleError.negativeElementInContext κ name)
        else .ok (c.insert lKey rKey)
      | _, _ => .ok c) = .ok d) :
    Pairs l r (fun other => named other ∨ other = name) d
      ∧ ∀ lKey rKey, d.right? lKey = some rKey → negative lKey = false := by
  obtain ⟨hpairs, hneg⟩ := hc
  split at h
  · rename_i lKey rKey hfind hfind'
    split at h
    · exact nomatch h
    · rename_i hpositive
      cases h
      have hnext := hpairs.insert hl hr hnew hfind hfind'
      refine ⟨hnext, fun x y hpair => ?_⟩
      obtain ⟨other, hother | rfl, hx, hy⟩ := (hnext.right?_iff x y).1 hpair
      · exact hneg x y ((hpairs.right?_iff x y).2 ⟨other, hother, hx, hy⟩)
      · rw [Option.some.inj (hx.symm.trans hfind)]
        exact Bool.eq_false_iff.2 hpositive
  · rename_i hmissing
    cases h
    refine ⟨hpairs.congr fun other x y hx hy => ⟨.inl, fun h => h.elim id fun heq => ?_⟩, hneg⟩
    exact absurd (heq ▸ hy) (hmissing x y (heq ▸ hx))

/-- **Relating L and R pairs the elements that bear the name of a context element**, and none of
them is negative. A negative element of L has no counterpart, and a rule in which it would have
one is not built. -/
theorem pairs_of_relate {l k r : Registry κ α} {negative : Key κ → Bool}
    {c : Correspondence (Key κ) (Key κ)} (hl : Graph.Indexed l) (hk : Graph.Indexed k)
    (hr : Graph.Indexed r) (h : relate l k r negative = .ok c) :
    Pairs l r (fun name => k.names.contains name = true) c
      ∧ ∀ lKey rKey, c.right? lKey = some rKey → negative lKey = false := by
  have hempty : Pairs l r (· ∈ ([] : List α).map nameOf) .empty :=
    ⟨fun _ _ => ⟨nofun, fun ⟨_, h, _⟩ => nomatch h⟩, fun _ _ => ⟨nofun, nofun⟩⟩
  have hall := foldlM_prefix (P := fun seen c => Pairs l r (· ∈ seen.map nameOf) c
      ∧ ∀ lKey rKey, c.right? lKey = some rKey → negative lKey = false)
    (fun before a after c d heq hc hd => by
      have hnew : nameOf a ∉ before.map nameOf := by
        have hnodup := hk.nodup_names_elements
        rw [heq, List.map_append, List.map_cons] at hnodup
        exact fun hmem => (List.nodup_append.1 hnodup).2.2 _ hmem _ List.mem_cons_self rfl
      obtain ⟨hpairs, hneg⟩ := pairs_relate_step hl hr hnew hc hd
      refine ⟨hpairs.congr fun name _ _ _ _ => ?_, hneg⟩
      rw [List.map_append, List.mem_append, List.map_singleton, List.mem_singleton])
    ⟨hempty, fun _ _ => nofun⟩ h
  refine ⟨hall.1.congr fun name _ _ _ _ => ?_, hall.2⟩
  rw [hk.contains_iff, List.mem_map]

end Context

end GraphGrammar
