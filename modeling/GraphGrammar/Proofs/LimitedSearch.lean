import GraphGrammar.Proofs.Search

/-!
# What limits do to a search

A search changes its progress in two ways only: it counts a step, and it records
an assignment. What both of these keep, the whole search keeps
(`Occurrence.search_keeps`). So no assignment that was found is lost again, no step
is taken back (`Occurrence.search_leadsTo`), and a search that has stopped tells
why (`Occurrence.run_justified`).

Two searches under different limits are compared in the same way. Suppose that a
step and a record come out alike under both limits, or else the first search stops
there for one and the same reason while the second may go on. Then so it is with
the whole search: it comes out alike, or the first one is cut short for that reason
(`Occurrence.run_cut`). A request to cancel, a smaller budget of steps and a smaller
number of options are limits of this kind.

Both comparisons are said once for the search as it is, with what is kept or compared as a
parameter. Each of the three limits then needs a few lines about counting a step and recording an
assignment, and none about plans or branches.
-/

namespace GraphGrammar

namespace Progress

/-! ## One progress and a later one

What was found is never taken back, and steps are only added. So of two moments of one search the
later one has found at least as much. -/

/-- A later progress of the same search: more may have been found, and more steps
have been taken. -/
structure LeadsTo (p q : Progress) : Prop where
  found : p.found.toList <+: q.found.toList
  steps : p.steps ≤ q.steps

variable {p q r : Progress}

/-- A progress leads to itself. -/
theorem LeadsTo.refl (p : Progress) : p.LeadsTo p := ⟨List.prefix_rfl, Nat.le_refl _⟩

/-- Later than later is later. -/
theorem LeadsTo.trans (hpq : p.LeadsTo q) (hqr : q.LeadsTo r) : p.LeadsTo r :=
  ⟨hpq.found.trans hqr.found, hpq.steps.trans hqr.steps⟩

/-- A step finds nothing. -/
theorem found_tick (limits : Limits) (p : Progress) : (p.tick limits).found = p.found :=
  Occurrence.found_expand (e := .node ⟨0⟩)

/-- A step is one step, whether or not it stops the search. -/
theorem steps_tick (limits : Limits) (p : Progress) : (p.tick limits).steps = p.steps + 1 := by
  unfold tick
  dsimp only
  split
  · rfl
  · split <;> rfl

/-- With the same assignments and no fewer steps, a progress is a later one. -/
theorem leadsTo_of_eq (hfound : p.found = q.found) (hsteps : p.steps ≤ q.steps) : p.LeadsTo q :=
  ⟨hfound ▸ List.prefix_rfl, hsteps⟩

/-- Counting a step leads on. -/
theorem leadsTo_expand (limits : Limits) (p : Progress) (e : PatternElement) :
    p.LeadsTo (Occurrence.expand limits p e) := by
  refine leadsTo_of_eq Occurrence.found_expand.symm ?_
  cases e with
  | node key => exact (Nat.le_succ _).trans (steps_tick limits p).ge
  | arc key => exact Nat.le_refl _
  | hyperarc key => exact Nat.le_refl _

/-- A record adds one assignment at the end. -/
theorem found_record (limits : Limits) (p : Progress) (a : Assignment) :
    (p.record limits a).found = p.found.push a := by
  unfold record
  dsimp only
  split <;> rfl

/-- A record takes no step. -/
theorem steps_record (limits : Limits) (p : Progress) (a : Assignment) :
    (p.record limits a).steps = p.steps := by
  unfold record
  dsimp only
  split <;> rfl

/-- Recording an assignment leads on. -/
theorem leadsTo_record (limits : Limits) (p : Progress) (a : Assignment) :
    p.LeadsTo (p.record limits a) := by
  refine ⟨?_, (steps_record limits p a).ge⟩
  rw [found_record, Array.toList_push]
  exact List.prefix_append _ _

/-- A search stopped for a reason where another one, which had come as far, may have gone on. The
one that stopped has found the beginning of what the other finds. -/
structure CutFrom (reason : RecognitionStatus) (p q : Progress) : Prop where
  stop : p.stop = some reason
  leadsTo : p.LeadsTo q

/-- A search that was cut short has stopped. -/
theorem CutFrom.stopped {reason : RecognitionStatus} (h : p.CutFrom reason q) :
    p.stopped = true :=
  Option.isSome_iff_exists.2 ⟨reason, h.stop⟩

/-- What was cut short stays so while the other search goes on. -/
theorem CutFrom.trans {reason : RecognitionStatus} (hpq : p.CutFrom reason q)
    (hqr : q.LeadsTo r) : p.CutFrom reason r :=
  ⟨hpq.stop, hpq.leadsTo.trans hqr⟩

/-! ## Why a search has stopped

`Progress.Justified` is the invariant: it ties the reason for a stop to the numbers that the
search has reached. It is what makes the status of a recognition mean something. -/

/-- A progress that can tell why it has stopped: as many assignments were found as
asked for, the budget of steps was exceeded by one, or there was a request to
cancel. In the first case, and while it goes on, it is within its budget. -/
structure Justified (limits : Limits) (p : Progress) : Prop where
  enough : p.stop = some .complete →
    ∃ count, limits.maxOptions = some count ∧ count ≤ p.found.size
  exceeded : p.stop = some .budgetExhausted →
    ∃ budget, limits.maxSteps = some budget ∧ p.steps = budget + 1
  requested : p.stop = some .cancelled → limits.cancelled = true
  within : p.status = .complete → ∀ budget, limits.maxSteps = some budget → p.steps ≤ budget

/-- A search that goes on is justified if it is within its budget. -/
theorem justified_of_going (hp : p.stop = none) {limits : Limits}
    (hsteps : ∀ budget, limits.maxSteps = some budget → p.steps ≤ budget) :
    Justified limits p :=
  have hgoing : ∀ {reason}, p.stop ≠ some reason := fun h => nomatch hp.symm.trans h
  ⟨fun h => absurd h hgoing, fun h => absurd h hgoing, fun h => absurd h hgoing, fun _ => hsteps⟩

/-- What has not stopped will be reported as complete. -/
theorem status_of_going (hp : p.stop = none) : p.status = .complete := by
  rw [status, hp]
  rfl

/-- A step keeps the reasons: it is the one that exceeds the budget, or the budget lasts.
Cancellation is asked about first, and only then the budget. -/
theorem justified_expand {limits : Limits} (hp : p.stop = none) (h : p.Justified limits)
    (e : PatternElement) : (Occurrence.expand limits p e).Justified limits := by
  cases e with
  | node key =>
    show (p.tick limits).Justified limits
    have hsteps := h.within (status_of_going hp)
    unfold tick
    dsimp only
    split
    · rename_i hcancelled
      exact ⟨nofun, nofun, fun _ => hcancelled, nofun⟩
    split
    · rename_i hmax
      obtain ⟨budget, hbudget, hlt⟩ := (Option.any_eq_true _ _).1 hmax
      have hle : p.steps ≤ budget := hsteps budget hbudget
      have hlt : budget < p.steps + 1 := of_decide_eq_true hlt
      exact ⟨nofun, fun _ => ⟨budget, hbudget, show p.steps + 1 = budget + 1 by omega⟩, nofun,
        nofun⟩
    · rename_i hmax
      refine justified_of_going ?_ fun budget hbudget => ?_
      · exact hp
      rw [hbudget, Option.any_some, decide_eq_true_eq, Nat.not_lt] at hmax
      exact hmax
  | arc key => exact h
  | hyperarc key => exact h

/-- A record keeps the reasons: it is the last one asked for, or more are wanted. -/
theorem justified_record {limits : Limits} (hp : p.stop = none) (h : p.Justified limits)
    (a : Assignment) : (p.record limits a).Justified limits := by
  have hsteps := h.within (status_of_going hp)
  unfold record
  dsimp only
  split
  · rename_i hmax
    obtain ⟨count, hcount, hle⟩ := (Option.any_eq_true _ _).1 hmax
    exact ⟨fun _ => ⟨count, hcount, of_decide_eq_true hle⟩, nofun, nofun, fun _ => hsteps⟩
  · refine justified_of_going ?_ hsteps
    exact hp

end Progress

/-- Limits under which a search goes as under others, or else is stopped for one reason. It is
asked of a step and of a record only, since a search does nothing else with its progress. -/
structure Limits.Shortens (reason : RecognitionStatus) (limits limits' : Limits) : Prop where
  expand : ∀ p e, Occurrence.expand limits p e = Occurrence.expand limits' p e ∨
    (Occurrence.expand limits p e).CutFrom reason (Occurrence.expand limits' p e)
  record : ∀ (p : Progress) a, p.record limits a = p.record limits' a ∨
    (p.record limits a).CutFrom reason (p.record limits' a)

namespace Occurrence

variable {s : Occurrence} {limits limits' : Limits} {reason : RecognitionStatus}
  {e : PatternElement} {rest : List PatternElement} {a : Assignment} {p : Progress}

/-! ## A search over the branches of a plan

A search that was stopped by a step does not look at the branches, and looking at
them would change nothing. -/

/-- The look for negative elements, one element along the plan, without the shortcut for a search
that was stopped. -/
theorem canExtend_cons :
    s.canExtend limits (e :: rest) a p =
      (s.extensions .negative a e).foldl (fun t b =>
        if t.1 || t.2.stopped then t else s.canExtend limits rest b t.2)
        (false, expand limits p e) := by
  rw [canExtend]
  dsimp only
  split
  · rename_i hstopped
    exact (foldl_of_done (fun t : Bool × Progress => t.1 || t.2.stopped)
      (fun t b => s.canExtend limits rest b t.2) _ (s := (false, _)) hstopped).symm
  · rfl

/-- The search, one element along the plan, in the same form. -/
theorem search_cons :
    s.search limits (e :: rest) a p =
      (s.extensions .positive a e).foldl (fun t b =>
        if t.stopped then t else s.search limits rest b t) (expand limits p e) := by
  rw [search]
  split
  · rename_i hstopped
    exact (foldl_of_done Progress.stopped (fun t b => s.search limits rest b t) _ hstopped).symm
  · rfl

/-- A loop that is not done has not stopped. -/
theorem going_of_not_done {t : Bool × Progress} (h : ¬ (t.1 || t.2.stopped) = true) :
    t.2.stop = none := by
  rw [Bool.not_eq_true, Bool.or_eq_false_iff] at h
  exact stopped_eq_false_iff.1 h.2

/-- What is not stopped has no reason to be; the form in which a branch hands it on. -/
theorem going_of_not_stopped (h : ¬ p.stopped = true) : p.stop = none :=
  stopped_eq_false_iff.1 (Bool.not_eq_true _ ▸ h)

/-! ## What a search keeps

The induction is on the plan, and within it on the list of branches. Since a branch is not
entered once the search has stopped, a property need be kept by steps and records of a search
that goes on only. -/

section Keeps

variable {P : Progress → Prop}
  (hexpand : ∀ p e, p.stop = none → P p → P (expand limits p e))
  (hrecord : ∀ p a, p.stop = none → P p → P (p.record limits a))

/-- A loop over branches keeps what the search of a branch keeps. The loop may carry something
beside the progress, which is why it is seen through a view. -/
theorem foldl_keeps {τ : Type} (view : τ → Progress) {done : τ → Bool} {step : τ → Assignment → τ}
    (hstep : ∀ t b, ¬ done t = true → P (view t) → P (view (step t b))) (bs : List Assignment)
    {t : τ} (h : P (view t)) :
    P (view (bs.foldl (fun t b => if done t then t else step t b) t)) :=
  List.foldlRecOn bs _ (motive := fun t => P (view t)) h fun t ht b _ => by
    split
    · exact ht
    · exact hstep t b ‹_› ht

include hexpand in
/-- What a step and a record keep, the look for negative elements keeps. -/
theorem canExtend_keeps : ∀ (plan : List PatternElement) (a : Assignment) (p : Progress),
    p.stop = none → P p → P (s.canExtend limits plan a p).2
  | [], _, _, _, h => h
  | e :: rest, a, p, hp, h => by
    rw [canExtend_cons]
    exact foldl_keeps Prod.snd (fun t b ht h =>
      canExtend_keeps rest b t.2 (going_of_not_done ht) h) _ (hexpand p e hp h)

include hexpand hrecord

/-- What a step and a record keep, the end of the positive plan keeps. -/
theorem conclude_keeps (a : Assignment) {p : Progress} (hp : p.stop = none) (h : P p) :
    P (s.conclude limits a p) := by
  have hexamined := canExtend_keeps (s := s) hexpand s.negativePlan a p hp h
  unfold conclude
  split
  · exact h
  split
  · exact hrecord p a hp h
  dsimp only
  split
  · exact hexamined
  · exact hrecord _ a (going_of_not_done ‹_›) hexamined

/-- **What a step and a record keep, a search keeps.** -/
theorem search_keeps : ∀ (plan : List PatternElement) (a : Assignment) (p : Progress),
    p.stop = none → P p → P (s.search limits plan a p)
  | [], a, _, hp, h => conclude_keeps hexpand hrecord a hp h
  | e :: rest, a, p, hp, h => by
    rw [search_cons]
    exact foldl_keeps id (fun t b ht h =>
      search_keeps rest b t (going_of_not_stopped ht) h) _ (hexpand p e hp h)

end Keeps

/-- The look for negative elements goes on from what was found before. -/
theorem canExtend_leadsTo (plan : List PatternElement) (a : Assignment) {p : Progress}
    (hp : p.stop = none) : p.LeadsTo (s.canExtend limits plan a p).2 :=
  canExtend_keeps (P := p.LeadsTo) (fun q e _ h => h.trans (Progress.leadsTo_expand limits q e))
    plan a p hp (.refl p)

/-- **A search goes on from what was found before.** -/
theorem search_leadsTo (plan : List PatternElement) (a : Assignment) {p : Progress}
    (hp : p.stop = none) : p.LeadsTo (s.search limits plan a p) :=
  search_keeps (P := p.LeadsTo) (fun q e _ h => h.trans (Progress.leadsTo_expand limits q e))
    (fun q b _ h => h.trans (Progress.leadsTo_record limits q b)) plan a p hp (.refl p)

/-- **A search that has stopped tells why.** -/
theorem run_justified (s : Occurrence) (limits : Limits) : (s.run limits).Justified limits :=
  search_keeps (P := (·.Justified limits)) (fun _ e hp h => Progress.justified_expand hp h e)
    (fun _ a hp h => Progress.justified_record hp h a) s.positivePlan s.unassigned {} rfl
    (Progress.justified_of_going rfl fun _ _ => Nat.zero_le _)

/-! ## Two searches under different limits

While both go on they are in the same state. So one progress stands for both until one of them
stops, and then the other one is only known to be later. -/

/-- Two loops of which the steps agree, or else fall apart for good, agree or have
fallen apart in the end. -/
theorem foldl_eq_or {β τ : Type} {step step' : τ → β → τ} (apart : τ → τ → Prop)
    (hstay : ∀ t t' b, apart t t' → apart (step t b) (step' t' b))
    (hstep : ∀ t b, step t b = step' t b ∨ apart (step t b) (step' t b)) :
    ∀ (bs : List β) {t t' : τ}, t = t' ∨ apart t t' →
      bs.foldl step t = bs.foldl step' t' ∨ apart (bs.foldl step t) (bs.foldl step' t')
  | [], _, _, h => h
  | b :: bs, t, t', h => by
    refine foldl_eq_or apart hstay hstep bs ?_
    rcases h with rfl | h
    · exact hstep t b
    · exact .inr (hstay t t' b h)

section Shortens

variable (h : limits.Shortens reason limits')

include h

/-- The look for negative elements comes out alike under shorter limits, or it is cut short. -/
theorem canExtend_cut : ∀ (plan : List PatternElement) (a : Assignment) (p : Progress),
    s.canExtend limits plan a p = s.canExtend limits' plan a p ∨
      (s.canExtend limits plan a p).2.CutFrom reason (s.canExtend limits' plan a p).2
  | [], _, _ => .inl rfl
  | e :: rest, a, p => by
    rw [canExtend_cons, canExtend_cons]
    refine foldl_eq_or (fun t t' : Bool × Progress => t.2.CutFrom reason t'.2) ?_ ?_ _
      ((h.expand p e).imp_left (congrArg _))
    · intro t t' b hcut
      rw [hcut.stopped, Bool.or_true, if_pos rfl]
      split
      · exact hcut
      · exact hcut.trans (canExtend_leadsTo rest b (going_of_not_done ‹_›))
    · intro t b
      split
      · exact .inl rfl
      · exact canExtend_cut rest b t.2

/-- So does the end of the positive plan. -/
theorem conclude_cut (a : Assignment) (p : Progress) :
    s.conclude limits a p = s.conclude limits' a p ∨
      (s.conclude limits a p).CutFrom reason (s.conclude limits' a p) := by
  unfold conclude
  split
  · exact .inl rfl
  split
  · exact h.record p a
  dsimp only
  rcases canExtend_cut h s.negativePlan a p with heq | hcut
  · rw [heq]
    split
    · exact .inl rfl
    · exact h.record _ a
  · -- cut short, the match is not recorded, whatever the other search says of it
    rw [hcut.stopped, Bool.or_true, if_pos rfl]
    split
    · exact .inr hcut
    · exact .inr (hcut.trans (Progress.leadsTo_record limits' _ a))

/-- **A search under shorter limits comes out alike or is cut short.** -/
theorem search_cut : ∀ (plan : List PatternElement) (a : Assignment) (p : Progress),
    s.search limits plan a p = s.search limits' plan a p ∨
      (s.search limits plan a p).CutFrom reason (s.search limits' plan a p)
  | [], a, p => conclude_cut h a p
  | e :: rest, a, p => by
    rw [search_cons, search_cons]
    refine foldl_eq_or (Progress.CutFrom reason) ?_ ?_ _ (h.expand p e)
    · intro t t' b hcut
      rw [hcut.stopped, if_pos rfl]
      split
      · exact hcut
      · exact hcut.trans (search_leadsTo rest b (going_of_not_stopped ‹_›))
    · intro t b
      split
      · exact .inl rfl
      · exact search_cut rest b t

end Shortens

end Occurrence

/-! ## Shorter limits

A limit is shorter than another if at each step, and each time something is recorded, the two
come out alike or the shorter one stops. There are three sorts of limits, and one lemma for each. -/

namespace Limits

open Occurrence (expand)

variable {limits limits' : Limits}

/-- A step of a node decides what any step does. Arcs and hyperarcs cost nothing, so there both
come out alike. -/
theorem expand_eq_or_cut {reason : RecognitionStatus}
    (htick : ∀ p : Progress, p.tick limits = p.tick limits' ∨
      (p.tick limits).CutFrom reason (p.tick limits')) (p : Progress) (e : PatternElement) :
    expand limits p e = expand limits' p e ∨
      (expand limits p e).CutFrom reason (expand limits' p e) := by
  cases e with
  | node key => exact htick p
  | arc key => exact .inl rfl
  | hyperarc key => exact .inl rfl

/-- A step of a node is the same under any limits, but for the stop. -/
theorem tick_leadsTo_tick (limits limits' : Limits) (p : Progress) :
    (p.tick limits).LeadsTo (p.tick limits') :=
  Progress.leadsTo_of_eq ((p.found_tick limits).trans (p.found_tick limits').symm)
    ((p.steps_tick limits).trans (p.steps_tick limits').symm).le

/-- A request to cancel shortens a search. -/
theorem shortens_cancelled (limits : Limits) (cancelled : Bool) :
    Shortens .cancelled { limits with cancelled := true } { limits with cancelled } :=
  ⟨expand_eq_or_cut fun p => .inr ⟨rfl, tick_leadsTo_tick _ _ p⟩, fun _ _ => .inl rfl⟩

/-- A smaller budget of steps shortens a search. -/
theorem shortens_maxSteps (limits : Limits) (budget : Nat) (budget' : Option Nat)
    (hle : ∀ larger, budget' = some larger → budget ≤ larger) :
    Shortens .budgetExhausted { limits with maxSteps := some budget }
      { limits with maxSteps := budget' } := by
  refine ⟨expand_eq_or_cut fun p => ?_, fun _ _ => .inl rfl⟩
  by_cases hcancelled : limits.cancelled = true
  · refine .inl ?_
    simp only [Progress.tick, hcancelled, if_true]
  by_cases hlt : budget < p.steps + 1
  · refine .inr ⟨?_, tick_leadsTo_tick _ _ p⟩
    simp only [Progress.tick, hcancelled, Option.any_some, hlt, decide_true, if_true,
      Bool.false_eq_true, if_false]
  · have hlt' : budget'.any (· < p.steps + 1) = false := by
      rw [← Bool.not_eq_true, Option.any_eq_true]
      rintro ⟨larger, hlarger, h⟩
      exact hlt ((hle larger hlarger).trans_lt (of_decide_eq_true h))
    refine .inl ?_
    simp only [Progress.tick, Option.any_some, hlt, hlt', decide_false]

/-- A smaller number of options shortens a search. -/
theorem shortens_maxOptions (limits : Limits) (count : Nat) (count' : Option Nat)
    (hle : ∀ larger, count' = some larger → count ≤ larger) :
    Shortens .complete { limits with maxOptions := some count }
      { limits with maxOptions := count' } := by
  refine ⟨expand_eq_or_cut fun _ => .inl rfl, fun p a => ?_⟩
  by_cases henough : count ≤ (p.found.push a).size
  · refine .inr ⟨?_, Progress.leadsTo_of_eq ?_ ?_⟩
    · simp only [Progress.record, Option.any_some, henough, decide_true, if_true]
    · rw [Progress.found_record, Progress.found_record]
    · rw [Progress.steps_record, Progress.steps_record]
  · have henough' : count'.any (· ≤ (p.found.push a).size) = false := by
      rw [← Bool.not_eq_true, Option.any_eq_true]
      rintro ⟨larger, hlarger, h⟩
      exact henough ((hle larger hlarger).trans (of_decide_eq_true h))
    refine .inl ?_
    simp only [Progress.record, Option.any_some, henough, henough', decide_false]

end Limits

end GraphGrammar
