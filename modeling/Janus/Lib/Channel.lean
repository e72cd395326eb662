import Mathlib.Data.List.Basic
import Mathlib.Tactic.Common

/-!
# A bounded channel with one receiver

Senders never wait: what finds no room is not sent. The receiver takes one value out, works
on it, and puts the result behind the results it has. Whatever the order of the steps, the
results and the values on their way are those that were sent, in the order of sending.
-/

namespace Janus

set_option autoImplicit false

universe u v

structure Channel (α : Type u) (β : Type v) where
  queue : List α
  /-- The value that the receiver works on. -/
  hand : Option α
  results : List β

namespace Channel

variable {α : Type u} {β : Type v}

def send (cap : Nat) (x : α) (c : Channel α β) : Channel α β :=
  if c.queue.length < cap then { c with queue := c.queue ++ [x] } else c

def receive (c : Channel α β) : Channel α β :=
  match c.hand, c.queue with
  | none, x :: queue => { c with queue := queue, hand := some x }
  | _, _ => c

def finish (f : α → β) (c : Channel α β) : Channel α β :=
  match c.hand with
  | some x => { c with hand := none, results := c.results ++ [f x] }
  | none => c

/-- The results so far, and after them those to come. -/
def contents (f : α → β) (c : Channel α β) : List β :=
  c.results ++ (c.hand.toList ++ c.queue).map f

variable (f : α → β)

theorem contents_send {cap : Nat} (x : α) {c : Channel α β} (h : c.queue.length < cap) :
    (c.send cap x).contents f = c.contents f ++ [f x] := by
  simp [contents, send, h]

theorem send_of_full {cap : Nat} (x : α) {c : Channel α β} (h : ¬ c.queue.length < cap) :
    c.send cap x = c := by
  rw [send, if_neg h]

theorem contents_receive (c : Channel α β) : c.receive.contents f = c.contents f := by
  unfold receive
  split
  · rename_i x queue hhand hqueue
    simp [contents, hhand, hqueue]
  · rfl

theorem contents_finish (c : Channel α β) : (c.finish f).contents f = c.contents f := by
  unfold finish
  split
  · rename_i x hhand
    simp [contents, hhand]
  · rfl

theorem results_prefix (c : Channel α β) : c.results <+: c.contents f := List.prefix_append _ _

/-- With nothing on its way, the results are complete. -/
theorem results_of_idle {c : Channel α β} (hqueue : c.queue = []) (hhand : c.hand = none) :
    c.results = c.contents f := by
  simp [contents, hqueue, hhand]

end Channel
end Janus
