import Mathlib.Algebra.Group.Nat.Defs
import Mathlib.Data.BitVec
import Mathlib.Logic.Relation

/-!
# pit.c

`sleep_ms` with the interrupts that come while it runs. `hlt` waits for any
interrupt, and the loop ends at the one tick that is its target: it returns
after a number of ticks that is `ms` modulo 2³², and after `ms` of them if all
come at a `hlt`. A tick between the test and the `hlt` can be the
one before the target; the target then goes by while the loop sleeps
(`sleep_run`).
-/

namespace AlexOS.Sleep

open Relation

/-- Where the loop is. -/
inductive Pc
  | test | hlt | halted | returned
  deriving DecidableEq

structure State where
  pitTicks : BitVec 32
  target : BitVec 32
  pc : Pc
  /-- The ticks since the call. -/
  elapsed : Nat
  /-- All of them came at a `hlt`. -/
  prompt : Bool

/-- At the call. -/
def sleepMs (pitTicks ms : BitVec 32) : State := ⟨pitTicks, pitTicks + ms, .test, 0, true⟩

/-- An interrupt wakes the CPU. -/
def Pc.wake : Pc → Pc
  | .halted => .test
  | pc => pc

inductive Step : State → State → Prop
  | leave {s : State} : s.pc = .test → s.pitTicks = s.target → Step s { s with pc := .returned }
  | again {s : State} : s.pc = .test → s.pitTicks ≠ s.target → Step s { s with pc := .hlt }
  | hlt {s : State} : s.pc = .hlt → Step s { s with pc := .halted }
  /-- `PIT_handler` -/
  | tick {s : State} : s.pc ≠ .returned → Step s
      { s with
        pitTicks := s.pitTicks + 1, pc := s.pc.wake, elapsed := s.elapsed + 1,
        prompt := s.prompt && decide (s.pc = .halted) }
  /-- Another interrupt. -/
  | irq {s : State} : s.pc ≠ .returned → Step s { s with pc := s.pc.wake }

structure Inv (pitTicks ms : BitVec 32) (s : State) : Prop where
  ticks : s.pitTicks = pitTicks + BitVec.ofNat 32 s.elapsed
  target : s.target = pitTicks + ms
  returned : s.pc = .returned → s.pitTicks = s.target
  before : s.prompt = true → s.elapsed ≤ ms.toNat ∧ (s.pc = .hlt ∨ s.pc = .halted → s.elapsed < ms.toNat)

section

variable {pitTicks ms : BitVec 32} {s s' : State}

/-- The test compares what has elapsed. -/
theorem Inv.at_target_iff (h : Inv pitTicks ms s) : s.pitTicks = s.target ↔ s.elapsed % 2 ^ 32 = ms.toNat := by
  rw [h.ticks, h.target, add_right_inj, ← BitVec.toNat_inj, BitVec.toNat_ofNat]

theorem inv_step (h : Inv pitTicks ms s) (hs : Step s s') : Inv pitTicks ms s' := by
  have hms := ms.isLt
  cases hs with
  | leave ht he => exact ⟨h.ticks, h.target, fun _ => he, fun hp => ⟨(h.before hp).1, by simp⟩⟩
  | again ht hne =>
    refine ⟨h.ticks, h.target, by simp, fun hp => ⟨(h.before hp).1, fun _ => ?_⟩⟩
    have hle := (h.before hp).1
    have hne' := mt h.at_target_iff.mpr hne
    show s.elapsed < ms.toNat
    rw [Nat.mod_eq_of_lt (by omega)] at hne'
    omega
  | hlt ht =>
    exact ⟨h.ticks, h.target, by simp,
      fun hp => ⟨(h.before hp).1, fun _ => (h.before hp).2 (.inl ht)⟩⟩
  | tick ht =>
    refine ⟨?_, h.target, fun hr => ?_, fun hp => ?_⟩
    · show s.pitTicks + 1 = _
      rw [h.ticks, BitVec.ofNat_add, ← add_assoc]
      rfl
    · simp only at hr
      cases hpc : s.pc <;> simp [Pc.wake, hpc] at hr ht
    · obtain ⟨hp, hpc⟩ : s.prompt = true ∧ s.pc = .halted := by simpa using hp
      have := (h.before hp).2 (.inr hpc)
      exact ⟨this, by simp [Pc.wake, hpc]⟩
  | irq ht =>
    refine ⟨h.ticks, h.target, fun hr => ?_, fun hp => ⟨(h.before hp).1, fun hpc => ?_⟩⟩
    · simp only at hr
      cases hpc : s.pc <;> simp [Pc.wake, hpc] at hr ht
    · refine (h.before hp).2 ?_
      cases hc : s.pc <;> simp [Pc.wake, hc] at hpc ⊢

theorem inv_run (hr : ReflTransGen Step (sleepMs pitTicks ms) s) : Inv pitTicks ms s := by
  induction hr with
  | refl =>
    exact ⟨(add_zero pitTicks).symm, rfl, by simp [sleepMs],
      fun _ => ⟨Nat.zero_le _, by simp [sleepMs]⟩⟩
  | tail _ hs ih => exact inv_step ih hs

/-- When it returns. -/
theorem returned_ok (hr : ReflTransGen Step (sleepMs pitTicks ms) s) (hpc : s.pc = .returned) :
    s.elapsed % 2 ^ 32 = ms.toNat ∧ (s.prompt = true → s.elapsed = ms.toNat) := by
  have h := inv_run hr
  have hmod := h.at_target_iff.mp (h.returned hpc)
  refine ⟨hmod, fun hp => ?_⟩
  have hle := (h.before hp).1
  have hms := ms.isLt
  rwa [Nat.mod_eq_of_lt (by omega)] at hmod

/-! ## The tick that is missed -/

theorem elapsed_le (hr : ReflTransGen Step s s') : s.elapsed ≤ s'.elapsed := by
  induction hr with
  | refl => exact Nat.le_refl _
  | tail _ hs ih =>
    cases hs with
    | tick => exact Nat.le_succ_of_le ih
    | _ => exact ih

/-- At the test, `k` ticks after the call. -/
def atTest (pitTicks ms : BitVec 32) (k : Nat) : State :=
  ⟨pitTicks + BitVec.ofNat 32 k, pitTicks + ms, .test, k, true⟩

/-- The loop goes on to the `hlt`. -/
theorem reach_hlt {k : Nat} (hk : k < ms.toNat) :
    ReflTransGen Step (atTest pitTicks ms k) { atTest pitTicks ms k with pc := .hlt } := by
  refine .single (.again rfl fun h => ?_)
  have hms := ms.isLt
  have := congrArg BitVec.toNat (add_left_cancel h)
  rw [BitVec.toNat_ofNat, Nat.mod_eq_of_lt (by omega)] at this
  omega

/-- One tick at each `hlt`. -/
theorem reach_test {k : Nat} (hk : k ≤ ms.toNat) :
    ReflTransGen Step (sleepMs pitTicks ms) (atTest pitTicks ms k) := by
  induction k with
  | zero =>
    rw [show atTest pitTicks ms 0 = sleepMs pitTicks ms by simp [atTest, sleepMs]]
  | succ k ih =>
    refine ((ih (by omega)).trans (reach_hlt hk)).trans ((ReflTransGen.single (.hlt rfl)).tail ?_)
    rw [show atTest pitTicks ms (k + 1) = { atTest pitTicks ms k with
      pitTicks := (atTest pitTicks ms k).pitTicks + 1, elapsed := k + 1 } by
        simp [atTest, BitVec.ofNat_add, add_assoc]]
    exact .tick (by simp)

/-- The target goes by. -/
theorem reach_missed (hms : ms ≠ 0) :
    ReflTransGen Step (sleepMs pitTicks ms)
      ⟨pitTicks + BitVec.ofNat 32 (ms.toNat - 1) + 1 + 1, pitTicks + ms, .test, ms.toNat - 1 + 1 + 1, false⟩ := by
  have hpos : 0 < ms.toNat := Nat.pos_of_ne_zero fun h => hms (BitVec.eq_of_toNat_eq h)
  have htest : ReflTransGen Step (sleepMs pitTicks ms) (atTest pitTicks ms (ms.toNat - 1)) := reach_test (by omega)
  have h := htest.trans (reach_hlt (by omega))
  exact ((h.tail (.tick (by simp))).tail (.hlt rfl)).tail (.tick (by simp))

/-- All runs of `sleep_ms`. -/
theorem sleep_run (pitTicks ms : BitVec 32) :
    (∀ s, ReflTransGen Step (sleepMs pitTicks ms) s → s.pc = .returned →
      s.elapsed % 2 ^ 32 = ms.toNat ∧ (s.prompt = true → s.elapsed = ms.toNat)) ∧
    (ms ≠ 0 → ∃ s, ReflTransGen Step (sleepMs pitTicks ms) s ∧ s.elapsed = ms.toNat + 1 ∧
      ∀ s', ReflTransGen Step s s' → s'.pc = .returned → ms.toNat + 2 ^ 32 ≤ s'.elapsed) := by
  refine ⟨fun s hr hpc => returned_ok hr hpc, fun hms => ⟨_, reach_missed hms, ?_, fun s' hr hpc => ?_⟩⟩
  · have hpos : 0 < ms.toNat := Nat.pos_of_ne_zero fun h => hms (BitVec.eq_of_toNat_eq h)
    show ms.toNat - 1 + 1 + 1 = _
    omega
  · have hmod := (returned_ok ((reach_missed hms).trans hr) hpc).1
    have hle := elapsed_le hr
    have hms' := ms.isLt
    simp only at hle
    omega

end

end AlexOS.Sleep
