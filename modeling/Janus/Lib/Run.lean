import Mathlib.Data.List.Forall2
import Mathlib.Tactic.Common

/-!
# Runs of a transition function

A transition takes a state and an action to the next state and emits events. An
invariant that every admitted action preserves, and that makes every emitted event
good in the state of its emission, makes all events of all admitted runs good. Two runs
whose actions are related one by one stay related where one step does.
-/

namespace Janus.Run

set_option autoImplicit false

universe u v w u' v' w'

variable {S : Type u} {A : Type v} {E : Type w} (step : S → A → S × List E)

/-- The state after a run. -/
def final : S → List A → S
  | s, [] => s
  | s, a :: as => final (step s a).1 as

/-- The events of a run, each with the state in which its action was taken. -/
def trace : S → List A → List (S × E)
  | _, [] => []
  | s, a :: as => (step s a).2.map (fun e => (s, e)) ++ trace (step s a).1 as

/-- Every action of the run is admitted in the state it is taken in. -/
def Along (ok : S → A → Prop) : S → List A → Prop
  | _, [] => True
  | s, a :: as => ok s a ∧ Along ok (step s a).1 as

variable {step} {ok : S → A → Prop} {Inv : S → Prop} {Good : S → E → Prop}

theorem along_of_mem {as : List A} (hok : ∀ a ∈ as, ∀ s, ok s a) (s : S) : Along step ok s as := by
  induction as generalizing s with
  | nil => trivial
  | cons a as ih =>
    exact ⟨hok a List.mem_cons_self s, ih (fun b hb => hok b (List.mem_cons_of_mem a hb)) (step s a).1⟩

theorem along_of_forall (hok : ∀ s a, ok s a) (as : List A) (s : S) : Along step ok s as :=
  along_of_mem (fun a _ s => hok s a) s

theorem inv_final (hstep : ∀ s a, Inv s → ok s a → Inv (step s a).1) (as : List A) (s : S)
    (hs : Inv s) (hok : Along step ok s as) : Inv (final step s as) := by
  induction as generalizing s with
  | nil => exact hs
  | cons a as ih =>
    obtain ⟨ha, hrest⟩ := hok
    exact ih (step s a).1 (hstep s a hs ha) hrest

/-- Where the admitted actions are just those that preserve the invariant, a run is admitted
exactly when the invariant holds at every point of it. -/
theorem along_iff_inv (hstep : ∀ s a, Inv s → (Inv (step s a).1 ↔ ok s a)) (as : List A) (s : S)
    (hs : Inv s) : (∀ n, Inv (final step s (as.take n))) ↔ Along step ok s as := by
  constructor
  · intro h
    induction as generalizing s with
    | nil => trivial
    | cons a as ih =>
      have hone : Inv (step s a).1 := h 1
      exact ⟨(hstep s a hs).mp hone, ih (step s a).1 hone fun n => h (n + 1)⟩
  · intro h n
    refine inv_final (fun s a hi ha => (hstep s a hi).mpr ha) (as.take n) s hs ?_
    induction as generalizing s n with
    | nil => simpa using h
    | cons a as ih =>
      obtain ⟨ha, hrest⟩ := h
      cases n with
      | zero => trivial
      | succ n => exact ⟨ha, ih (step s a).1 ((hstep s a hs).mpr ha) hrest n⟩

/-- Two tests of an action that agree where the invariant holds admit the same runs, if one of
them preserves it. -/
theorem along_congr {ok' : S → A → Prop} (hiff : ∀ s a, Inv s → (ok s a ↔ ok' s a))
    (hstep : ∀ s a, Inv s → ok s a → Inv (step s a).1) (as : List A) (s : S) (hs : Inv s) :
    Along step ok s as ↔ Along step ok' s as := by
  induction as generalizing s with
  | nil => exact Iff.rfl
  | cons a as ih =>
    constructor
    · rintro ⟨ha, hrest⟩
      exact ⟨(hiff s a hs).mp ha, (ih (step s a).1 (hstep s a hs ha)).mp hrest⟩
    · rintro ⟨ha, hrest⟩
      have ha' := (hiff s a hs).mpr ha
      exact ⟨ha', (ih (step s a).1 (hstep s a hs ha')).mpr hrest⟩

theorem good_trace (hstep : ∀ s a, Inv s → ok s a → Inv (step s a).1)
    (hev : ∀ s a, Inv s → ok s a → ∀ e ∈ (step s a).2, Good s e) (as : List A) (s : S)
    (hs : Inv s) (hok : Along step ok s as) : ∀ p ∈ trace step s as, Good p.1 p.2 := by
  induction as generalizing s with
  | nil =>
    intro p hp
    cases hp
  | cons a as ih =>
    obtain ⟨ha, hrest⟩ := hok
    intro p hp
    rcases List.mem_append.mp hp with hp | hp
    · obtain ⟨e, he, rfl⟩ := List.mem_map.mp hp
      exact hev s a hs ha e he
    · exact ih (step s a).1 (hstep s a hs ha) hrest p hp

/-- The events of a run, without the states. -/
def events (step : S → A → S × List E) (s : S) (as : List A) : List E := (trace step s as).map Prod.snd

theorem events_cons (s : S) (a : A) (as : List A) :
    events step s (a :: as) = (step s a).2 ++ events step (step s a).1 as := by
  simp only [events, trace, List.map_append, List.map_map, Function.comp_def, List.map_id']

/-- What relates the events emitted so far to the state is kept by whole runs, when one action
keeps it. -/
theorem inv_events {R : List E → S → Prop}
    (hstep : ∀ es s a, R es s → R (es ++ (step s a).2) (step s a).1) (as : List A) (es : List E)
    (s : S) (hs : R es s) : R (es ++ events step s as) (final step s as) := by
  induction as generalizing es s with
  | nil =>
    have hnone : es ++ events step s [] = es := List.append_nil es
    exact hnone.symm ▸ hs
  | cons a as ih =>
    rw [events_cons, ← List.append_assoc]
    exact ih (es ++ (step s a).2) (step s a).1 (hstep es s a hs)

/-- Runs from related states emit the same events, when related states emit the same events at
every admitted action and stay related. -/
theorem events_congr {T : Type u} {step' : T → A → T × List E} {R : S → T → Prop} {P : A → Prop}
    (hstep : ∀ s t a, R s t → P a → R (step s a).1 (step' t a).1)
    (hev : ∀ s t a, R s t → P a → (step s a).2 = (step' t a).2) (as : List A) (s : S) (t : T)
    (hr : R s t) (hp : ∀ a ∈ as, P a) : events step s as = events step' t as := by
  induction as generalizing s t with
  | nil => rfl
  | cons a as ih =>
    have ha : P a := hp a List.mem_cons_self
    rw [events_cons, events_cons, hev s t a hr ha]
    exact congrArg _ (ih (step s a).1 (step' t a).1 (hstep s t a hr ha)
      fun b hb => hp b (List.mem_cons_of_mem a hb))

/-- Where every action emits one event, the events of a run stand for its actions one by one. -/
theorem forall₂_events {P : A → E → Prop} (hstep : ∀ s a, ∃ e, (step s a).2 = [e] ∧ P a e)
    (as : List A) (s : S) : List.Forall₂ P as (events step s as) := by
  induction as generalizing s with
  | nil => exact List.Forall₂.nil
  | cons a as ih =>
    obtain ⟨e, he, hp⟩ := hstep s a
    rw [events_cons, he]
    exact List.Forall₂.cons hp (ih (step s a).1)

/-- What holds at the end of a run held at its start, or one of the actions brought it about. -/
theorem origin {X : Type*} {M : S → X → Prop} {By : S → A → X → Prop}
    (hinv : ∀ s a, Inv s → ok s a → Inv (step s a).1)
    (hstep : ∀ s a x, Inv s → ok s a → M (step s a).1 x → M s x ∨ By s a x) (as : List A) (s : S)
    (hs : Inv s) (hok : Along step ok s as) {x : X} (h : M (final step s as) x) :
    M s x ∨ ∃ front a back, as = front ++ a :: back ∧ By (final step s front) a x := by
  induction as generalizing s with
  | nil => exact .inl h
  | cons a as ih =>
    obtain ⟨ha, hrest⟩ := hok
    rcases ih (step s a).1 (hinv s a hs ha) hrest h with hfirst | ⟨front, b, back, rfl, hlater⟩
    · rcases hstep s a x hs ha hfirst with hbefore | hnow
      · exact .inl hbefore
      · exact .inr ⟨[], a, as, rfl, hnow⟩
    · exact .inr ⟨a :: front, b, back, rfl, hlater⟩

theorem final_append (s : S) (as bs : List A) :
    final step s (as ++ bs) = final step (final step s as) bs := by
  induction as generalizing s with
  | nil => rfl
  | cons a as ih => exact ih (step s a).1

theorem along_append {ok : S → A → Prop} {s : S} {as bs : List A} :
    Along step ok s (as ++ bs) ↔ Along step ok s as ∧ Along step ok (final step s as) bs := by
  induction as generalizing s with
  | nil => exact ⟨fun h => ⟨trivial, h⟩, And.right⟩
  | cons a as ih =>
    constructor
    · rintro ⟨ha, hrest⟩
      obtain ⟨has, hbs⟩ := ih.mp hrest
      exact ⟨⟨ha, has⟩, hbs⟩
    · rintro ⟨⟨ha, has⟩, hbs⟩
      exact ⟨ha, ih.mpr ⟨has, hbs⟩⟩

section Pairs

variable {T : Type u'} {B : Type v'} {F : Type w'} {step' : T → B → T × List F}

/-- Related runs stay related and emit related events. -/
theorem forall₂_final_events {R : S → T → Prop} {P : A → B → Prop} {Q : E → F → Prop}
    (hstep : ∀ s t a b, R s t → P a b →
      R (step s a).1 (step' t b).1 ∧ List.Forall₂ Q (step s a).2 (step' t b).2)
    {as : List A} {bs : List B} (hp : List.Forall₂ P as bs) (s : S) (t : T) (hr : R s t) :
    R (final step s as) (final step' t bs) ∧
      List.Forall₂ Q (events step s as) (events step' t bs) := by
  induction hp generalizing s t with
  | nil => exact ⟨hr, .nil⟩
  | @cons a b as bs ha _ ih =>
    obtain ⟨hr', he⟩ := hstep s t a b hr ha
    obtain ⟨hfinal, hes⟩ := ih (step s a).1 (step' t b).1 hr'
    refine ⟨hfinal, ?_⟩
    rw [events_cons, events_cons]
    exact List.rel_append he hes

variable {out : E → F} {abstr : List E → S → T} {tell : S → A → B}

/-- The actions of a run as another system is told of them, each in the state it is taken in. -/
def told (step : S → A → S × List E) (tell : S → A → B) : S → List A → List B
  | _, [] => []
  | s, a :: as => tell s a :: told step tell (step s a).1 as

/-- A system whose state shows at every action, with the events so far, the state of another one
after the action that it is told of, shows the whole run of that one. -/
theorem final_events_told {Inv : List E → S → Prop}
    (hinv : ∀ es s a, Inv es s → Inv (es ++ (step s a).2) (step s a).1)
    (hstep : ∀ es s a, Inv es s → step' (abstr es s) (tell s a) =
      (abstr (es ++ (step s a).2) (step s a).1, (step s a).2.map out))
    (as : List A) (es : List E) (s : S) (hs : Inv es s) :
    final step' (abstr es s) (told step tell s as) = abstr (es ++ events step s as) (final step s as) ∧
      events step' (abstr es s) (told step tell s as) = (events step s as).map out := by
  induction as generalizing es s with
  | nil =>
    have hnone : es ++ events step s [] = es := List.append_nil es
    exact ⟨congrArg (abstr · s) hnone.symm, rfl⟩
  | cons a as ih =>
    obtain ⟨hfinal, hevents⟩ := ih (es ++ (step s a).2) (step s a).1 (hinv es s a hs)
    rw [told, events_cons, events_cons, final, final, hstep es s a hs, List.map_append,
      ← List.append_assoc]
    exact ⟨hfinal, congrArg _ hevents⟩

end Pairs

end Janus.Run
