import GraphGrammar.Report

/-!
# Following outcomes

An operation that succeeded went through all of its steps. The lemmas here
take a successful chain of steps apart, and put one together of steps that are
known to succeed.

The lemmas about folds differ in what they start from. If it is known that a fold succeeded,
`foldlM_keeps` and `foldlM_prefix` tell what holds of its result. If it is known that every step
succeeds, `foldlM_succeeds` and `foldlM_eq_ok` tell that the fold does, and the latter takes the
failures away altogether, so that a chain of edits can be reasoned about as a plain fold.
-/

namespace GraphGrammar

variable {ε δ α β : Type}

/-- A chain that succeeded did so step by step. Taken from left to right this gives the values
that were handed on; it is used wherever a program is taken apart. -/
theorem bind_eq_ok_iff {x : Except ε α} {f : α → Except ε β} {b : β} :
    x >>= f = .ok b ↔ ∃ a, x = .ok a ∧ f a = .ok b := by
  cases x with
  | error e => exact ⟨nofun, fun ⟨_, h, _⟩ => nomatch h⟩
  | ok a => exact ⟨fun h => ⟨a, rfl, h⟩, fun ⟨_, h, h'⟩ => by cases h; exact h'⟩

/-- A step that succeeds hands its result to the next. -/
theorem bind_of_eq_ok {x : Except ε α} {a : α} (h : x = .ok a) (f : α → Except ε β) :
    x >>= f = f a := by
  rw [h]
  rfl

theorem eq_ok_of_toOption {x : Except ε α} {a : α} (h : x.toOption = some a) : x = .ok a := by
  cases x with
  | error e => exact nomatch h
  | ok b => exact congrArg Except.ok (Option.some.inj h)

/-- Rewording a failure does not turn it into a success or the other way round. -/
theorem mapError_eq_ok_iff {x : Except ε α} {f : ε → δ} {a : α} :
    x.mapError f = .ok a ↔ x = .ok a := by
  cases x with
  | error e => exact ⟨nofun, nofun⟩
  | ok b => exact ⟨fun h => by cases h; rfl, fun h => by cases h; rfl⟩

/-- Pairing a result with something is as good as having it. -/
theorem map_mk_eq_ok_iff {x : Except ε β} {a a' : α} {b : β} :
    x.map (Prod.mk a') = .ok (a, b) ↔ a' = a ∧ x = .ok b := by
  cases x with
  | error e => exact ⟨nofun, nofun⟩
  | ok c => simp [Except.map]

/-- A note is put down for a failure and never in the way of a success. -/
theorem Outcome.note_eq_ok_iff {outcome : Outcome ε α} {line : String} {a : α} :
    outcome.note line = .ok a ↔ outcome = .ok a := mapError_eq_ok_iff

/-- A cause is superseded where there is one. -/
theorem Outcome.supersede_eq_ok_iff [Cause δ] {outcome : Outcome ε α} {cause : δ} {a : α} :
    outcome.supersede cause = .ok a ↔ outcome = .ok a := mapError_eq_ok_iff

/-- A pass over a list succeeds exactly when every step of it does. -/
theorem forM_eq_ok_iff {f : α → Except ε Unit} :
    {xs : List α} → (xs.forM f = .ok () ↔ ∀ x ∈ xs, f x = .ok ())
  | [] => ⟨fun _ _ => nofun, fun _ => rfl⟩
  | x :: rest => by
    show (f x >>= fun _ => rest.forM f) = .ok () ↔ _
    rw [bind_eq_ok_iff, List.forall_mem_cons]
    constructor
    · rintro ⟨_, hx, hrest⟩
      exact ⟨hx, forM_eq_ok_iff.1 hrest⟩
    · rintro ⟨hx, hrest⟩
      exact ⟨(), hx, forM_eq_ok_iff.2 hrest⟩

/-- What every successful step of a fold keeps holds of its result. -/
theorem foldlM_keeps {f : β → α → Except ε β} {P : β → Prop} :
    ∀ {xs : List α} {b c : β}, (∀ b x c, x ∈ xs → P b → f b x = .ok c → P c) → P b →
      xs.foldlM f b = .ok c → P c
  | [], b, c, _, hb, h => by
    cases h
    exact hb
  | x :: rest, b, c, hstep, hb, h => by
    rw [List.foldlM_cons] at h
    obtain ⟨d, hd, h⟩ := bind_eq_ok_iff.1 h
    exact foldlM_keeps (fun b y c hy => hstep b y c (List.mem_cons_of_mem _ hy))
      (hstep b x d List.mem_cons_self hb hd) h

/-- What holds of the start and is passed on by every successful step, from the
elements before it to these and its own, holds of the result and all
elements. -/
theorem foldlM_prefix {f : β → α → Except ε β} {P : List α → β → Prop} {xs : List α} {b c : β}
    (hstep : ∀ before x after b c, xs = before ++ x :: after → P before b → f b x = .ok c →
      P (before ++ [x]) c) (hb : P [] b) (h : xs.foldlM f b = .ok c) : P xs c := by
  have hrest : ∀ (rest before : List α) (b : β), xs = before ++ rest → P before b →
      rest.foldlM f b = .ok c → P xs c := by
    intro rest
    induction rest with
    | nil =>
      intro before b heq hb h
      cases h
      rwa [heq, List.append_nil]
    | cons x rest ih =>
      intro before b heq hb h
      rw [List.foldlM_cons] at h
      obtain ⟨d, hd, h⟩ := bind_eq_ok_iff.1 h
      refine ih (before ++ [x]) d ?_ (hstep before x rest b d heq hb hd) h
      rw [heq, List.append_assoc, List.singleton_append]
  exact hrest xs [] b rfl hb h

/-- A fold whose steps succeed as long as they keep something succeeds and
keeps it. -/
theorem foldlM_succeeds {f : β → α → Except ε β} {P : β → Prop} :
    ∀ {xs : List α} {b : β}, (∀ b x, x ∈ xs → P b → ∃ c, f b x = .ok c ∧ P c) → P b →
      ∃ c, xs.foldlM f b = .ok c ∧ P c
  | [], b, _, hb => ⟨b, rfl, hb⟩
  | x :: rest, b, hstep, hb => by
    obtain ⟨d, hd, hpd⟩ := hstep b x List.mem_cons_self hb
    obtain ⟨c, hc, hpc⟩ :=
      foldlM_succeeds (fun b y hy => hstep b y (List.mem_cons_of_mem _ hy)) hpd
    refine ⟨c, ?_, hpc⟩
    rw [List.foldlM_cons, hd]
    exact hc

/-- A fold whose steps fail for what is wrong with their elements, and for nothing else as long as
something is kept, fails for the first of these, and is a plain one if there is none. -/
theorem foldlM_eq_elim {f : β → α → Except ε β} {step : β → α → β} {P : β → Prop}
    (wrong : α → Option ε) : ∀ (xs : List α) {b : β},
    (∀ b x, x ∈ xs → P b → f b x = (wrong x).elim (.ok (step b x)) .error ∧ P (step b x)) → P b →
    xs.foldlM f b = (xs.findSome? wrong).elim (.ok (xs.foldl step b)) .error
  | [], _, _, _ => rfl
  | x :: rest, b, hstep, hb => by
    obtain ⟨hx, hkept⟩ := hstep b x List.mem_cons_self hb
    rw [List.foldlM_cons, hx, List.findSome?_cons, List.foldl_cons]
    cases wrong x with
    | some e => rfl
    | none =>
      exact foldlM_eq_elim wrong rest (fun b y hy => hstep b y (List.mem_cons_of_mem _ hy)) hkept

/-- A fold whose steps succeed as long as they keep something is a plain one. -/
theorem foldlM_eq_ok {f : β → α → Except ε β} {step : β → α → β} {P : β → Prop}
    (xs : List α) {b : β}
    (hstep : ∀ b x, x ∈ xs → P b → f b x = .ok (step b x) ∧ P (step b x)) (hb : P b) :
    xs.foldlM f b = .ok (xs.foldl step b) := by
  rw [foldlM_eq_elim (fun _ => none) xs hstep hb, List.findSome?_eq_none_iff.2 fun _ _ => rfl]
  rfl

end GraphGrammar
