import Mathlib.Data.List.Nodup
import Mathlib.Data.List.Perm.Basic
import Mathlib.Logic.Relation

/-!
# MinionAgent.Library.Checkout

A first-in first-out queue whose front batch can be checked out: taken away,
and later either delivered or put back ahead of the queue.

* `Lane` — a queue with the record of what happened to its items;
* `Lane.Step`, `Lane.Reachable` — its operations and runs;
* `Sound` — where the items are and in which order they are delivered;
* `sound_of_reachable` — every run is sound.

An item claimed while a batch is checked out overtakes that batch if the batch
is put back, so a delivery records the batch it may have overtaken.
-/

namespace Checkout

/-- A delivered item, and what was checked out when it was delivered. -/
structure Delivery (α : Type) where
  item : α
  heldThen : List α

/-- A queue, the batch checked out of it, and the record of its items. -/
structure Lane (α : Type) where
  sent : List α := []
  queue : List α := []
  held : List α := []
  delivered : List (Delivery α) := []
  discarded : List α := []

section

variable {α : Type}

namespace Lane

/-! ## Operations -/

/-- A new item, at the back. -/
def send (a : α) (lane : Lane α) : Lane α :=
  { lane with sent := lane.sent ++ [a], queue := lane.queue ++ [a] }

/-- The first `k` items, delivered at once. -/
def claim (k : Nat) (lane : Lane α) : Lane α :=
  { lane with
    queue := lane.queue.drop k
    delivered := lane.delivered ++ (lane.queue.take k).map fun a => ⟨a, lane.held⟩ }

/-- The first `k` items, taken away for now. -/
def checkOut (k : Nat) (lane : Lane α) : Lane α :=
  { lane with queue := lane.queue.drop k, held := lane.queue.take k }

/-- The batch is delivered. -/
def commit (lane : Lane α) : Lane α :=
  { lane with held := [], delivered := lane.delivered ++ lane.held.map fun a => ⟨a, []⟩ }

/-- The batch comes back, ahead of the queue. -/
def rollback (lane : Lane α) : Lane α := { lane with queue := lane.held ++ lane.queue, held := [] }

/-- What is queued is discarded. -/
def clear (lane : Lane α) : Lane α := { lane with queue := [], discarded := lane.discarded ++ lane.queue }

/-- One operation.  A batch is checked out only when no other is. -/
inductive Step : Lane α → Lane α → Prop
  | send (a : α) (lane : Lane α) : Step lane (lane.send a)
  | claim (k : Nat) (lane : Lane α) : Step lane (lane.claim k)
  | checkOut (k : Nat) (lane : Lane α) (h : lane.held = []) : Step lane (lane.checkOut k)
  | commit (lane : Lane α) : Step lane lane.commit
  | rollback (lane : Lane α) : Step lane lane.rollback
  | clear (lane : Lane α) : Step lane lane.clear

/-- The lanes some run leads to. -/
def Reachable (lane : Lane α) : Prop := Relation.ReflTransGen Step {} lane

end Lane

/-! ## Soundness -/

/-- `a` was sent before `b`. -/
def SentBefore (sent : List α) (a b : α) : Prop := [a, b].Sublist sent

/-- `b` is delivered after `d` rightly: it was sent later, or it was checked
out when `d` was delivered. -/
def Follows (sent : List α) (d : Delivery α) (b : α) : Prop := SentBefore sent d.item b ∨ b ∈ d.heldThen

/-- Where the items of a lane are, and in which order they come. -/
structure Sound (lane : Lane α) : Prop where
  /-- Every sent item is in one place. -/
  placed : (lane.queue ++ lane.held ++ lane.delivered.map Delivery.item ++ lane.discarded).Perm lane.sent
  /-- What waits is in the order it was sent, the batch first. -/
  waiting : (lane.held ++ lane.queue).Sublist lane.sent
  /-- What waits follows every delivery. -/
  follows : ∀ d ∈ lane.delivered, ∀ b ∈ lane.held ++ lane.queue, Follows lane.sent d b
  /-- Deliveries follow each other. -/
  ordered : lane.delivered.Pairwise fun d e => Follows lane.sent d e.item

theorem SentBefore.mono {sent sent' : List α} (h : sent.Sublist sent') {a b : α} (hab : SentBefore sent a b) :
    SentBefore sent' a b :=
  hab.trans h

theorem Follows.mono {sent sent' : List α} (h : sent.Sublist sent') {d : Delivery α} {b : α}
    (hdb : Follows sent d b) : Follows sent' d b :=
  hdb.imp (SentBefore.mono h) id

/-- Of two waiting parts one behind the other, the first was sent first. -/
theorem sentBefore_of_append {front back sent : List α} (h : (front ++ back).Sublist sent) {a b : α} (ha : a ∈ front)
    (hb : b ∈ back) : SentBefore sent a b :=
  ((List.singleton_sublist.mpr ha).append (List.singleton_sublist.mpr hb)).trans h

/-- A waiting part was sent in its order. -/
theorem pairwise_sentBefore {xs sent : List α} (h : xs.Sublist sent) : xs.Pairwise (SentBefore sent) :=
  List.pairwise_iff_forall_sublist.mpr fun hab => hab.trans h

/-- Delivering items records them. -/
theorem map_item_map (xs : List α) (held : List α) :
    (xs.map fun a => (⟨a, held⟩ : Delivery α)).map Delivery.item = xs := by
  rw [List.map_map]
  exact List.map_id xs

theorem sound_empty : Sound ({} : Lane α) where
  placed := List.Perm.nil
  waiting := List.Sublist.refl _
  follows := by simp
  ordered := List.Pairwise.nil

theorem sound_send {lane : Lane α} (h : Sound lane) (a : α) : Sound (lane.send a) := by
  have hgrows : lane.sent.Sublist (lane.sent ++ [a]) := List.sublist_append_left _ _
  constructor
  · classical
    rw [List.perm_iff_count]
    intro x
    have hcount := List.perm_iff_count.mp h.placed x
    simp only [Lane.send, List.count_append] at hcount ⊢
    omega
  · simp only [Lane.send]
    rw [← List.append_assoc]
    exact h.waiting.append (List.Sublist.refl _)
  · intro d hd b hb
    simp only [Lane.send] at hd hb ⊢
    rw [← List.append_assoc] at hb
    rcases List.mem_append.mp hb with hold | hnew
    · exact (h.follows d hd b hold).mono hgrows
    · have hsent : d.item ∈ lane.sent := h.placed.subset (by simp; exact .inr (.inr (.inl ⟨d, hd, rfl⟩)))
      exact .inl (sentBefore_of_append (List.Sublist.refl _) hsent hnew)
  · exact h.ordered.imp fun hde => hde.mono hgrows

theorem sound_claim {lane : Lane α} (h : Sound lane) (k : Nat) : Sound (lane.claim k) := by
  have hqueue : lane.queue.Sublist lane.sent := (List.sublist_append_right _ _).trans h.waiting
  have hsplit : (lane.queue.take k ++ lane.queue.drop k).Sublist lane.sent := by rwa [List.take_append_drop]
  constructor
  · classical
    rw [List.perm_iff_count]
    intro x
    have hcount := List.perm_iff_count.mp h.placed x
    rw [← List.take_append_drop k lane.queue] at hcount
    simp only [Lane.claim, List.map_append, map_item_map, List.count_append] at hcount ⊢
    omega
  · exact ((List.Sublist.refl _).append (List.drop_sublist _ _)).trans h.waiting
  · intro d hd b hb
    simp only [Lane.claim] at hd hb ⊢
    rcases List.mem_append.mp hd with hold | hnew
    · exact h.follows d hold b (((List.Sublist.refl _).append (List.drop_sublist _ _)).subset hb)
    · obtain ⟨a, ha, rfl⟩ := List.mem_map.mp hnew
      rcases List.mem_append.mp hb with hheld | hqueued
      · exact .inr hheld
      · exact .inl (sentBefore_of_append hsplit ha hqueued)
  · simp only [Lane.claim]
    rw [List.pairwise_append]
    refine ⟨h.ordered, ?_, ?_⟩
    · rw [List.pairwise_map]
      exact (pairwise_sentBefore ((List.take_sublist _ _).trans hqueue)).imp Or.inl
    · intro d hd e he
      obtain ⟨b, hb, rfl⟩ := List.mem_map.mp he
      exact h.follows d hd b (List.mem_append_right _ (List.mem_of_mem_take hb))

theorem sound_checkOut {lane : Lane α} (h : Sound lane) (k : Nat) (hfree : lane.held = []) :
    Sound (lane.checkOut k) := by
  have hwaiting : lane.queue.take k ++ lane.queue.drop k = lane.held ++ lane.queue := by
    rw [List.take_append_drop, hfree, List.nil_append]
  constructor
  · refine List.Perm.trans ?_ h.placed
    have hswap : (lane.queue.drop k ++ lane.queue.take k).Perm (lane.queue ++ lane.held) := by
      rw [hfree, List.append_nil]
      exact List.perm_append_comm.trans (by rw [List.take_append_drop])
    exact (hswap.append_right _).append_right _
  · simp only [Lane.checkOut]
    rw [hwaiting]
    exact h.waiting
  · intro d hd b hb
    simp only [Lane.checkOut] at hb
    rw [hwaiting] at hb
    exact h.follows d hd b hb
  · exact h.ordered

theorem sound_commit {lane : Lane α} (h : Sound lane) : Sound lane.commit := by
  constructor
  · classical
    rw [List.perm_iff_count]
    intro x
    have hcount := List.perm_iff_count.mp h.placed x
    simp only [Lane.commit, List.map_append, map_item_map, List.count_append, List.count_nil] at hcount ⊢
    omega
  · exact (List.sublist_append_right _ _).trans h.waiting
  · intro d hd b hb
    simp only [Lane.commit, List.nil_append] at hd hb ⊢
    rcases List.mem_append.mp hd with hold | hnew
    · exact h.follows d hold b (List.mem_append_right _ hb)
    · obtain ⟨a, ha, rfl⟩ := List.mem_map.mp hnew
      exact .inl (sentBefore_of_append h.waiting ha hb)
  · simp only [Lane.commit]
    rw [List.pairwise_append]
    refine ⟨h.ordered, ?_, ?_⟩
    · rw [List.pairwise_map]
      exact (pairwise_sentBefore ((List.sublist_append_left _ _).trans h.waiting)).imp Or.inl
    · intro d hd e he
      obtain ⟨b, hb, rfl⟩ := List.mem_map.mp he
      exact h.follows d hd b (List.mem_append_left _ hb)

theorem sound_rollback {lane : Lane α} (h : Sound lane) : Sound lane.rollback := by
  constructor
  · refine List.Perm.trans ?_ h.placed
    simp only [Lane.rollback, List.append_nil]
    exact (List.perm_append_comm.append_right _).append_right _
  · exact h.waiting
  · exact h.follows
  · exact h.ordered

theorem sound_clear {lane : Lane α} (h : Sound lane) : Sound lane.clear := by
  constructor
  · classical
    rw [List.perm_iff_count]
    intro x
    have hcount := List.perm_iff_count.mp h.placed x
    simp only [Lane.clear, List.count_append, List.count_nil] at hcount ⊢
    omega
  · exact ((List.Sublist.refl _).append (List.nil_sublist _)).trans h.waiting
  · intro d hd b hb
    simp only [Lane.clear, List.append_nil] at hb
    exact h.follows d hd b (List.mem_append_left _ hb)
  · exact h.ordered

/-- One operation keeps a lane sound. -/
theorem sound_step {lane lane' : Lane α} (h : Sound lane) (hstep : lane.Step lane') : Sound lane' := by
  cases hstep with
  | send a => exact sound_send h a
  | claim k => exact sound_claim h k
  | checkOut k _ hfree => exact sound_checkOut h k hfree
  | commit => exact sound_commit h
  | rollback => exact sound_rollback h
  | clear => exact sound_clear h

/-- Every run is sound. -/
theorem sound_of_reachable {lane : Lane α} (h : lane.Reachable) : Sound lane := by
  induction h with
  | refl => exact sound_empty
  | tail _ hstep ih => exact sound_step ih hstep

end

end Checkout
