import Mathlib.Data.List.Basic

/-!
# Bounded broadcast channels

A sender and any number of receivers, each with a cursor of its own. The channel holds the
last `capacity` values. A receiver that finds the value at its cursor overwritten is told
that it lagged, before it gets any later value. A value sent while there is no receiver is
dropped.
-/
namespace Pmd.Foundation

/-- What a receiver is told. The sender is never dropped here, so a channel is never closed. -/
inductive Recv (α : Type) where
  | value (a : α)
  /-- Nothing to receive yet. -/
  | empty
  | lagged (skipped : ℕ)

/-- The channel as its users see it. `sent` is every value taken in so far and `next` the
cursor of a receiver; neither can be observed. -/
structure BroadcastChannel (α : Type) where
  Sender : Type
  Receiver : Type
  channel : ℕ → Sender
  subscribe : Sender → Sender × Receiver
  send : Sender → α → Sender
  recv : Sender → Receiver → Recv α × Receiver
  dropReceiver : Sender → Receiver → Sender
  capacity : Sender → ℕ
  receivers : Sender → ℕ
  sent : Sender → List α
  next : Receiver → ℕ
  capacity_channel : ∀ n, n ≤ capacity (channel n)
  capacity_subscribe : ∀ tx, capacity (subscribe tx).1 = capacity tx
  capacity_send : ∀ tx a, capacity (send tx a) = capacity tx
  capacity_drop : ∀ tx rx, capacity (dropReceiver tx rx) = capacity tx
  receivers_channel : ∀ n, receivers (channel n) = 0
  receivers_subscribe : ∀ tx, receivers (subscribe tx).1 = receivers tx + 1
  receivers_send : ∀ tx a, receivers (send tx a) = receivers tx
  receivers_drop : ∀ tx rx, receivers (dropReceiver tx rx) = receivers tx - 1
  sent_channel : ∀ n, sent (channel n) = []
  sent_subscribe : ∀ tx, sent (subscribe tx).1 = sent tx
  sent_send : ∀ tx a, 0 < receivers tx → sent (send tx a) = sent tx ++ [a]
  sent_drop : ∀ tx rx, sent (dropReceiver tx rx) = sent tx
  next_subscribe : ∀ tx, next (subscribe tx).2 = (sent tx).length
  recv_empty : ∀ tx rx, (sent tx).length ≤ next rx → recv tx rx = (.empty, rx)
  /-- The value at the cursor, while the channel holds it. -/
  recv_value : ∀ tx rx a, (sent tx)[next rx]? = some a →
    (sent tx).length ≤ next rx + capacity tx →
      ∃ rx', recv tx rx = (.value a, rx') ∧ next rx' = next rx + 1
  recv_lagged : ∀ tx rx, next rx + capacity tx < (sent tx).length →
    ∃ skipped rx', recv tx rx = (.lagged skipped, rx')

attribute [simp] BroadcastChannel.capacity_subscribe BroadcastChannel.capacity_send
  BroadcastChannel.capacity_drop BroadcastChannel.receivers_channel
  BroadcastChannel.receivers_subscribe BroadcastChannel.receivers_send
  BroadcastChannel.receivers_drop BroadcastChannel.sent_channel
  BroadcastChannel.sent_subscribe BroadcastChannel.sent_drop BroadcastChannel.next_subscribe

namespace BroadcastChannel
variable {α : Type} (B : BroadcastChannel α)

/-- What a receiver has not been given yet, overwritten or not. -/
def backlog (tx : B.Sender) (rx : B.Receiver) : List α := (B.sent tx).drop (B.next rx)

variable {B} {tx : B.Sender} {rx : B.Receiver}

theorem backlog_subscribe_self (tx : B.Sender) :
    B.backlog (B.subscribe tx).1 (B.subscribe tx).2 = [] := by
  simp [backlog]

theorem backlog_subscribe (tx : B.Sender) (rx : B.Receiver) :
    B.backlog (B.subscribe tx).1 rx = B.backlog tx rx := by
  rw [backlog, backlog, B.sent_subscribe]

theorem backlog_drop (tx : B.Sender) (rx rx' : B.Receiver) :
    B.backlog (B.dropReceiver tx rx') rx = B.backlog tx rx := by
  rw [backlog, backlog, B.sent_drop]

theorem backlog_send (hr : 0 < B.receivers tx) (hrx : B.next rx ≤ (B.sent tx).length) (a : α) :
    B.backlog (B.send tx a) rx = B.backlog tx rx ++ [a] := by
  rw [backlog, backlog, B.sent_send tx a hr, List.drop_append_of_le_length hrx]

/-- A value received is the first of the backlog. -/
theorem backlog_recv {a : α} {rx' : B.Receiver} (hrx : B.next rx ≤ (B.sent tx).length)
    (h : B.recv tx rx = (.value a, rx')) :
    B.backlog tx rx = a :: B.backlog tx rx' ∧ B.next rx' ≤ (B.sent tx).length := by
  rcases Nat.eq_or_lt_of_le hrx with hend | hlt
  · rw [B.recv_empty tx rx (Nat.le_of_eq hend.symm), Prod.mk.injEq] at h
    cases h.1
  · by_cases hlag : B.next rx + B.capacity tx < (B.sent tx).length
    · obtain ⟨skipped, rx'', hrecv⟩ := B.recv_lagged tx rx hlag
      rw [hrecv, Prod.mk.injEq] at h
      cases h.1
    · obtain ⟨rx'', hrecv, hnext⟩ := B.recv_value tx rx _ (List.getElem?_eq_getElem hlt)
        (Nat.le_of_not_lt hlag)
      rw [hrecv, Prod.mk.injEq, Recv.value.injEq] at h
      obtain ⟨rfl, rfl⟩ := h
      rw [backlog, backlog, hnext]
      exact ⟨List.drop_eq_getElem_cons hlt, hlt⟩

/-- Waiting does not move the cursor. -/
theorem eq_of_recv_empty {rx' : B.Receiver} (h : B.recv tx rx = (.empty, rx')) : rx' = rx := by
  by_cases hend : (B.sent tx).length ≤ B.next rx
  · rw [B.recv_empty tx rx hend, Prod.mk.injEq] at h
    exact h.2.symm
  · by_cases hlag : B.next rx + B.capacity tx < (B.sent tx).length
    · obtain ⟨skipped, rx'', hrecv⟩ := B.recv_lagged tx rx hlag
      rw [hrecv, Prod.mk.injEq] at h
      cases h.1
    · obtain ⟨rx'', hrecv, -⟩ := B.recv_value tx rx _
        (List.getElem?_eq_getElem (Nat.lt_of_not_le hend)) (Nat.le_of_not_lt hlag)
      rw [hrecv, Prod.mk.injEq] at h
      cases h.1

/-- With more in the backlog than the channel holds, the receiver has lagged. -/
theorem recv_of_lost (h : B.capacity tx < (B.backlog tx rx).length) :
    ∃ skipped rx', B.recv tx rx = (.lagged skipped, rx') := by
  rw [backlog, List.length_drop] at h
  exact B.recv_lagged tx rx (by omega)

/-! ## A channel that meets the interface -/

namespace History

/-- The channel keeps every value; what is further back than the capacity counts as
overwritten. -/
structure Sender (α : Type) where
  capacity : ℕ
  receivers : ℕ
  sent : List α

def recv (tx : Sender α) (rx : ℕ) : Recv α × ℕ :=
  if rx + tx.capacity < tx.sent.length then
    (.lagged (tx.sent.length - tx.capacity - rx), tx.sent.length - tx.capacity)
  else
    match tx.sent[rx]? with
    | some a => (.value a, rx + 1)
    | none => (.empty, rx)

theorem recv_empty {tx : Sender α} {rx : ℕ} (h : tx.sent.length ≤ rx) :
    recv tx rx = (.empty, rx) := by
  have hlag : ¬ rx + tx.capacity < tx.sent.length := by omega
  rw [recv, if_neg hlag, List.getElem?_eq_none h]

theorem recv_value {tx : Sender α} {rx : ℕ} {a : α} (ha : tx.sent[rx]? = some a)
    (h : tx.sent.length ≤ rx + tx.capacity) : recv tx rx = (.value a, rx + 1) := by
  rw [recv, if_neg (Nat.not_lt.mpr h), ha]

def send (tx : Sender α) (a : α) : Sender α :=
  if 0 < tx.receivers then { tx with sent := tx.sent ++ [a] } else tx

end History

def history (α : Type) : BroadcastChannel α where
  Sender := History.Sender α
  Receiver := ℕ
  channel n := ⟨n, 0, []⟩
  subscribe tx := ({ tx with receivers := tx.receivers + 1 }, tx.sent.length)
  send := History.send
  recv := History.recv
  dropReceiver tx _ := { tx with receivers := tx.receivers - 1 }
  capacity := History.Sender.capacity
  receivers := History.Sender.receivers
  sent := History.Sender.sent
  next rx := rx
  capacity_channel n := Nat.le_refl n
  capacity_subscribe _ := rfl
  capacity_send tx a := by
    rw [History.send]
    split <;> rfl
  capacity_drop _ _ := rfl
  receivers_channel _ := rfl
  receivers_subscribe _ := rfl
  receivers_send tx a := by
    rw [History.send]
    split <;> rfl
  receivers_drop _ _ := rfl
  sent_channel _ := rfl
  sent_subscribe _ := rfl
  sent_send tx a h := by
    rw [History.send, if_pos h]
  sent_drop _ _ := rfl
  next_subscribe _ := rfl
  recv_empty _ _ h := History.recv_empty h
  recv_value _ rx _ ha h := ⟨rx + 1, History.recv_value ha h, rfl⟩
  recv_lagged tx rx h := ⟨_, _, if_pos h⟩

end BroadcastChannel
end Pmd.Foundation
