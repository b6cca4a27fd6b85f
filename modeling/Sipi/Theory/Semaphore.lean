import Sipi.Theory.Tally

/-!
# A fair counting semaphore, and how to account for its permits

A count of free permits and a queue of waiters, first come first served.

## Accounting

`Moves i s s' …` is what one operation on behalf of the client `i` does to the semaphore. `Accounts s total held
waits` says that the permits held by the clients and those in the semaphore add up to `total`, and that the waiters
are exactly the clients of which `waits` is true. `Accounts.move` carries it through a step.
-/

namespace Sipi.Theory

variable {ι : Type*}

/-- A fair counting semaphore. -/
structure Semaphore (ι : Type*) where
  permits : ℕ
  queue : List ι
  granted : List ι
  idle : queue ≠ [] → permits = 0

namespace Semaphore

/-- `n` free permits. -/
def new (n : ℕ) : Semaphore ι := ⟨n, [], [], fun h => absurd rfl h⟩

/-- Take a free permit, or fail. -/
def tryAcquire (s : Semaphore ι) : Option (Semaphore ι) :=
  if s.permits = 0 then none
  else some ⟨s.permits - 1, s.queue, s.granted, fun h => by rw [s.idle h]⟩

/-- Take a free permit, or join the queue. -/
def acquire (s : Semaphore ι) (i : ι) : Semaphore ι × Bool :=
  if h : s.permits = 0 then (⟨s.permits, s.queue ++ [i], s.granted, fun _ => h⟩, false)
  else (⟨s.permits - 1, s.queue, s.granted, fun hq => by rw [s.idle hq]⟩, true)

/-- A permit for the first waiter, or a free one. -/
def release (s : Semaphore ι) : Semaphore ι :=
  match h : s.queue with
  | [] => ⟨s.permits + 1, [], s.granted, fun h => absurd rfl h⟩
  | j :: q => ⟨s.permits, q, s.granted ++ [j], fun _ => s.idle (by rw [h]; exact List.cons_ne_nil j q)⟩

theorem tryAcquire_eq_none {s : Semaphore ι} : s.tryAcquire = none ↔ s.permits = 0 := by
  unfold tryAcquire
  split <;> simp_all

/-- The permits that no client holds. -/
def out (s : Semaphore ι) : ℕ := s.permits + s.granted.length

/-- Who waits, or has been handed a permit. -/
def waiters (s : Semaphore ι) : List ι := s.queue ++ s.granted

theorem out_release (s : Semaphore ι) : s.release.out = s.out + 1 := by
  unfold release
  split <;> simp [out] <;> omega

theorem waiters_release (s : Semaphore ι) : s.release.waiters.Perm s.waiters := by
  unfold release
  split
  · next h => simp [waiters, h]
  · next j q h =>
    simp only [waiters, h, List.cons_append]
    rw [← List.append_assoc]
    exact List.perm_append_singleton j _

/-! ### What an operation does -/

section
variable [DecidableEq ι]

/-- A waiter takes the permit it was handed. -/
def claim (s : Semaphore ι) (i : ι) : Option (Semaphore ι) :=
  if i ∈ s.granted then some ⟨s.permits, s.queue, s.granted.erase i, s.idle⟩ else none

/-- A waiter gives up, and its permit goes on. -/
def cancel (s : Semaphore ι) (i : ι) : Semaphore ι :=
  if i ∈ s.granted then release ⟨s.permits, s.queue, s.granted.erase i, s.idle⟩
  else ⟨s.permits, s.queue.erase i, s.granted, fun h => s.idle fun hq => h (by rw [hq]; rfl)⟩

/-- What `i` holds and waits for, before and after. -/
structure Moves (i : ι) (s s' : Semaphore ι) (held held' : ℕ) (waits waits' : Bool) : Prop where
  balance : s'.out + held' = s.out + held
  nodup : s.waiters.Nodup → (i ∈ s.waiters ↔ waits) → s'.waiters.Nodup
  mem : s.waiters.Nodup → (i ∈ s.waiters ↔ waits) →
    ∀ j, j ∈ s'.waiters ↔ if j = i then waits' = true else j ∈ s.waiters

variable {i : ι} {s s' : Semaphore ι} {held : ℕ}

theorem Moves.refl (i : ι) (s : Semaphore ι) (held : ℕ) (waits : Bool) :
    Moves i s s held held waits waits where
  balance := rfl
  nodup h _ := h
  mem _ hi j := by
    split
    · next h => rw [h, hi]
    · rfl

theorem Moves.of_perm {he' : ℕ} {waits : Bool} (hb : s'.out + he' = s.out + held)
    (hw : s'.waiters.Perm s.waiters) : Moves i s s' held he' waits waits where
  balance := hb
  nodup h _ := hw.nodup_iff.mpr h
  mem _ hi j := by
    rw [hw.mem_iff]
    split
    · next h => rw [h, hi]
    · rfl

theorem Moves.of_erase {he' : ℕ} (hb : s'.out + he' = s.out + held)
    (hw : s.waiters.Nodup → s'.waiters.Perm (s.waiters.erase i)) :
    Moves i s s' held he' true false where
  balance := hb
  nodup h _ := (hw h).nodup_iff.mpr (h.erase i)
  mem h _ j := by
    rw [(hw h).mem_iff, h.mem_erase_iff]
    by_cases hj : j = i <;> simp [hj]

theorem moves_tryAcquire (h : s.tryAcquire = some s') (waits : Bool) : Moves i s s' held (held + 1) waits waits := by
  unfold tryAcquire at h
  split at h
  · cases h
  · next hne =>
    cases h
    refine Moves.of_perm ?_ (List.Perm.refl _)
    simp only [out]
    omega

theorem moves_acquire_true (h : (s.acquire i).2 = true) (waits : Bool) :
    Moves i s (s.acquire i).1 held (held + 1) waits waits := by
  unfold acquire at h ⊢
  split at h
  · cases h
  · next hne =>
    rw [dif_neg hne]
    refine Moves.of_perm ?_ (List.Perm.refl _)
    simp only [out]
    omega

theorem moves_acquire_false (h : (s.acquire i).2 = false) : Moves i s (s.acquire i).1 held held false true := by
  unfold acquire at h ⊢
  split at h
  · next h0 =>
    rw [dif_pos h0]
    have hp : (s.queue ++ [i] ++ s.granted).Perm (i :: s.waiters) := by
      rw [List.append_assoc]
      exact List.perm_middle
    refine ⟨rfl, fun hn hi => ?_, fun hn hi j => ?_⟩
    · exact hp.nodup_iff.mpr (List.nodup_cons.mpr ⟨by simpa using hi, hn⟩)
    · show j ∈ s.queue ++ [i] ++ s.granted ↔ _
      rw [hp.mem_iff, List.mem_cons]
      by_cases hj : j = i <;> simp [hj]
  · cases h

theorem moves_release (waits : Bool) : Moves i s s.release (held + 1) held waits waits := by
  refine Moves.of_perm ?_ s.waiters_release
  rw [out_release]
  omega

theorem perm_erase_granted (h : i ∈ s.granted) (hn : s.waiters.Nodup) :
    (s.queue ++ s.granted.erase i).Perm (s.waiters.erase i) := by
  have hq : i ∉ s.queue := fun hq => (List.disjoint_of_nodup_append hn) hq h
  rw [waiters, List.erase_append_right _ hq]

theorem moves_claim (h : s.claim i = some s') : Moves i s s' held (held + 1) true false := by
  unfold claim at h
  split at h
  · next hg =>
    cases h
    refine Moves.of_erase ?_ (perm_erase_granted hg)
    have := List.length_erase_of_mem hg
    have := List.length_pos_of_mem hg
    simp only [out]
    omega
  · cases h

theorem moves_cancel : Moves i s (s.cancel i) held held true false := by
  unfold cancel
  split
  · next hg =>
    refine Moves.of_erase ?_ fun hn => (waiters_release _).trans (perm_erase_granted hg hn)
    have := List.length_erase_of_mem hg
    have := List.length_pos_of_mem hg
    rw [out_release]
    simp only [out]
    omega
  · next hg =>
    refine Moves.of_erase rfl fun _ => ?_
    have he : s.queue.erase i ++ s.granted = (s.queue ++ s.granted).erase i := by
      by_cases hq : i ∈ s.queue
      · rw [List.erase_append_left _ hq]
      · rw [List.erase_append_right _ hq, List.erase_of_not_mem hq, List.erase_of_not_mem hg]
    exact List.Perm.of_eq he

end

variable [Fintype ι] {s s' : Semaphore ι}

/-- The permits add up, the waiters are known. -/
structure Accounts (s : Semaphore ι) (total : ℕ) (held : ι → ℕ) (waits : ι → Bool) : Prop where
  balance : s.out + ∑ i, held i = total
  nodup : s.waiters.Nodup
  mem : ∀ i, i ∈ s.waiters ↔ waits i = true

variable {total : ℕ} {heldBy : ι → ℕ} {waitsFor : ι → Bool}

theorem accounts_new (n : ℕ) : Accounts (ι := ι) (new n) n (fun _ => 0) (fun _ => false) where
  balance := by simp [out, new]
  nodup := List.nodup_nil
  mem i := by simp [waiters, new]

section
variable (h : Accounts s total heldBy waitsFor)
include h

theorem Accounts.move [DecidableEq ι] {i : ι} {he' : ℕ} {waits' : Bool}
    (hm : Moves i s s' (heldBy i) he' (waitsFor i) waits') :
    Accounts s' total (Function.update heldBy i he') (Function.update waitsFor i waits') where
  balance := by
    have h₁ := h.balance
    have h₂ := hm.balance
    have h₃ := tally_update id heldBy i he'
    simp only [tally, id] at h₃
    omega
  nodup := hm.nodup h.nodup (h.mem i)
  mem j := by
    rw [hm.mem h.nodup (h.mem i)]
    by_cases hj : j = i
    · subst hj
      simp
    · simp [hj, h.mem j]

theorem Accounts.held_add_granted_le : s.granted.length + ∑ i, heldBy i ≤ total := by
  have := h.balance
  simp only [out] at this
  omega

theorem Accounts.held_add_granted_eq (hb : s.tryAcquire = none) : s.granted.length + ∑ i, heldBy i = total := by
  have := h.balance
  simp only [out, tryAcquire_eq_none.mp hb] at this
  omega

theorem Accounts.exists_claim [DecidableEq ι] (ht : 0 < total) (hh : ∀ i, heldBy i = 0) {i : ι}
    (hw : waitsFor i = true) : ∃ j, waitsFor j = true ∧ (s.claim j).isSome = true := by
  have hb := h.balance
  simp only [out, hh, Finset.sum_const_zero, Nat.add_zero] at hb
  cases hg : s.granted with
  | nil =>
    have hq : i ∈ s.queue := by simpa [waiters, hg] using (h.mem i).mpr hw
    have hp := s.idle (List.ne_nil_of_mem hq)
    simp only [hp, hg, List.length_nil] at hb
    omega
  | cons j q =>
    have hj : j ∈ s.granted := hg ▸ List.mem_cons_self
    refine ⟨j, (h.mem j).mp (List.mem_append_right _ hj), ?_⟩
    rw [claim, if_pos hj]
    rfl

theorem Accounts.eq_new (hh : ∀ i, heldBy i = 0) (hw : ∀ i, waitsFor i = false) : s = new total := by
  have hn : s.waiters = [] := by
    rw [List.eq_nil_iff_forall_not_mem]
    intro i hi
    rw [h.mem, hw] at hi
    cases hi
  obtain ⟨hq, hg⟩ := List.append_eq_nil_iff.mp hn
  have hp := h.balance
  simp only [out, hg, List.length_nil, hh, Finset.sum_const_zero, Nat.add_zero] at hp
  cases s
  simp_all [new]

end

end Semaphore

end Sipi.Theory
