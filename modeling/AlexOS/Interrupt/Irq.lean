import AlexOS.Interrupt.Pic
import Mathlib.Logic.Relation

/-!
# Interrupt requests

`irq.c` and the 8259 pair together. A device raises its line at any time. While
interrupts are enabled the CPU takes the request that the pair passes on, and
runs the handler of the vector with interrupts disabled: `i686_IRQ_Handler`, or
`PIT_handler` once it is registered. The driver routines that `i686_IRQ_Handler`
calls end interrupts of their own accord (the keyboard line 1, the host
controller line 11, whatever line it is on), so any ends of interrupt are
allowed in them. There may be spurious interrupts, which the handlers do not
tell from others.

`irq_run`: no request is lost, none is served twice, and whenever no handler
runs, the request of the highest priority can be taken.
-/

namespace AlexOS.Irq

open PicOp Relation Interrupt

/-- `i686_IRQ_Handler`. The routine of the line sends the ends of interrupt `eois irq`. -/
def irqHandler (eois : Nat → List Nat) (interrupt : BitVec 8) : List PicOp :=
  let irq := interrupt.toNat - 0x20
  picReadIsr ++ (picReadIrr ++ ((eois irq).flatMap picSendEOI ++ picSendEOI irq))

def pitHandler : List PicOp := picSendEOI 0

/-- What `g_ISRHandlers` has at the vectors of the lines, before and after `PIT_init`. -/
def handler (eois : Nat → List Nat) (pit : Bool) (interrupt : BitVec 8) : List PicOp :=
  if pit && interrupt = 0x20 then pitHandler else irqHandler eois interrupt

/-- The routines of the kernel, with a host controller at `line`. -/
def kernelEois (line irq : Nat) : List Nat := if irq = line then [11] else if irq = 1 then [1] else []

inductive Event
  | raised (n : Nat)
  | served (n : Nat)
  | spurious (n : Nat)
  deriving DecidableEq

structure State where
  pics : PicPair
  /-- What is left of the handler, if one runs. -/
  todo : Option (List PicOp)
  /-- What has happened, the last event first. -/
  log : List Event

/-- The line is wired to a device. -/
def Wired (n : Nat) : Prop := n < 16 ∧ n ≠ 2

/-- The line was raised after it was served last. -/
def waiting (n : Nat) : List Event → Bool
  | [] => false
  | .raised m :: es => decide (m = n) || waiting n es
  | .served m :: es => !decide (m = n) && waiting n es
  | .spurious _ :: es => waiting n es

/-- Every line that was served had been raised, since it was served last. -/
def Sound : List Event → Prop
  | [] => True
  | .served n :: es => waiting n es = true ∧ Sound es
  | _ :: es => Sound es

/-- Of a spurious interrupt of the slave, the master knows no better. -/
def spuriousIsr (n : Nat) (p : PicPair) : PicPair :=
  if n < 8 then p else { p with master := { p.master with isr := p.master.isr ||| 0x04 } }

inductive Step (eois : Nat → List Nat) : State → State → Prop
  | raise {s : State} (n : Nat) : Wired n →
      Step eois s { s with pics := s.pics.raise n, log := .raised n :: s.log }
  | accept {s : State} (pit : Bool) {v : BitVec 8} {p : PicPair} : s.todo = none → s.pics.ack = some (v, p) →
      Step eois s ⟨p, some (handler eois pit v), .served (v.toNat - 0x20) :: s.log⟩
  | spurious {s : State} (n : Nat) : s.todo = none → n = 7 ∨ n = 15 →
      Step eois s ⟨spuriousIsr n s.pics, some (irqHandler eois (BitVec.ofNat 8 (0x20 + n))), .spurious n :: s.log⟩
  | port {s : State} {o : PicOp} {todo : List PicOp} : s.todo = some (o :: todo) →
      Step eois s { s with pics := o.exec s.pics, todo := some todo }
  | iret {s : State} : s.todo = some [] → Step eois s { s with todo := none }

/-- When `i686_IRQ_Initialize` enables interrupts. -/
def booted (p : PicPair) : State := ⟨run (picConfigure 0x20 0x28) p, none, []⟩

/-- The order in which the pair prefers the lines. -/
def priority (n : Nat) : Nat := if n < 2 then n else if 8 ≤ n then n - 6 else n + 8

/-- The handler that runs ends what is in service. -/
structure Ends (todo : List PicOp) (p : PicPair) : Prop where
  quiet : ∀ o ∈ todo, Quiet o
  master : (run todo p).master.isr = 0
  slave : (run todo p).slave.isr = 0

structure Inv (s : State) : Prop where
  master : Configured 0x20 4 s.pics.master
  slave : Configured 0x28 2 s.pics.slave
  /-- Nothing but the slave is on input 2. -/
  input : s.pics.master.irr.getLsbD 2 = false
  requested : ∀ n, Wired n → s.pics.requested n = waiting n s.log
  sound : Sound s.log
  idle : s.todo = none → s.pics.master.isr = 0 ∧ s.pics.slave.isr = 0
  busy : ∀ todo, s.todo = some todo → Ends todo s.pics

section

variable {eois : Nat → List Nat} {pit : Bool} {s s' : State} {p p' : PicPair} {v : BitVec 8} {n m : Nat}
  {ops : List PicOp} {o : PicOp}

/-! ## The handlers -/

theorem irqHandler_ends (hn : v.toNat - 0x20 = n) (h : Serving n p) : Ends (irqHandler eois v) p := by
  have hq : ∀ o ∈ (eois n).flatMap picSendEOI, Quiet o := by
    intro o ho
    obtain ⟨k, -, hk⟩ := List.mem_flatMap.mp ho
    exact sendEOI_quiet k o hk
  have hs := ((h.run_all readIsr_quiet).run_all readIrr_quiet).run_all hq
  refine ⟨?_, ?_, ?_⟩
  · simp only [irqHandler, hn, List.forall_mem_append]
    exact ⟨readIsr_quiet, readIrr_quiet, hq, sendEOI_quiet n⟩
  · simp only [irqHandler, hn, run_append]
    exact hs.sendEOI.1
  · simp only [irqHandler, hn, run_append]
    exact hs.sendEOI.2

theorem handler_ends (hn : v.toNat - 0x20 = n) (h : Serving n p) : Ends (handler eois pit v) p := by
  unfold handler
  split
  · rename_i hv
    obtain ⟨-, hv⟩ : pit = true ∧ v = 0x20 := by simpa using hv
    obtain rfl : n = 0 := by
      rw [← hn, hv]
      rfl
    exact ⟨sendEOI_quiet 0, h.sendEOI.1, h.sendEOI.2⟩
  · exact irqHandler_ends hn h

/-- A step of the handler. -/
theorem Ends.step (h : Ends (o :: ops) p) : Ends ops (o.exec p) :=
  ⟨(List.forall_mem_cons.mp h.quiet).2, h.master, h.slave⟩

theorem Ends.congr (h : Ends ops p) (hm : p'.master.isr = p.master.isr) (hs : p'.slave.isr = p.slave.isr) :
    Ends ops p' := by
  obtain ⟨em, es⟩ := isr_congr h.quiet hm hs
  exact ⟨h.quiet, em.trans h.master, es.trans h.slave⟩

/-! ## What the pair passes on -/

/-- Line `n` is the first of the lines with a request, and it is acknowledged. -/
structure Taken (n : Nat) (p : PicPair) (v : BitVec 8) (p' : PicPair) : Prop where
  wired : Wired n
  vector : v = BitVec.ofNat 8 (0x20 + n)
  requested : p.requested n = true
  first : ∀ k, Wired k → p.requested k = true → priority n ≤ priority k
  now : p' = if n < 8 then { p with master := p.master.accept (Fin.ofNat 8 n) }
    else ⟨p.master.accept 2, p.slave.accept (Fin.ofNat 8 (n - 8))⟩

/-- Both controllers are set up, and nothing is in service. -/
structure Ready (p : PicPair) : Prop where
  master : Configured 0x20 4 p.master
  slave : Configured 0x28 2 p.slave
  input : p.master.irr.getLsbD 2 = false
  idle : p.master.isr = 0 ∧ p.slave.isr = 0

theorem Ready.seen_clear (h : Ready p) : p.seen.Clear := ⟨h.idle.1, h.master.imr⟩

theorem Ready.slave_clear (h : Ready p) : p.slave.Clear := ⟨h.idle.2, h.slave.imr⟩

theorem seen_irr (p : PicPair) (i : Fin 8) :
    p.seen.irr.getLsbD i = (p.master.irr.getLsbD i || (p.slave.pending.isSome && decide (i = 2))) := by
  unfold PicPair.seen
  split <;> rename_i h
  · rw [BitVec.getLsbD_or, Pic.getLsbD_bit, h, Bool.true_and, decide_eq_decide.mpr (eq_comm (a := (2 : Fin 8)))]
  · simp [h]

theorem requested_slave (p : PicPair) (j : Fin 8) : p.requested (8 + j) = p.slave.irr.getLsbD j := by
  simp [PicPair.requested]

theorem requested_master (p : PicPair) (i : Fin 8) : p.requested i = p.master.irr.getLsbD i := by
  simp [PicPair.requested, i.isLt]

theorem cascade_bit (i : Fin 8) : (4 : BitVec 8).getLsbD i = decide (i = 2) := by
  revert i
  decide

/-- The request of a line of the master. -/
theorem Ready.taken_master (h : Ready p) {i : Fin 8} (hi : i ≠ 2) (hp : p.seen.pending = some i) :
    ∃ v p', p.ack = some (v, p') ∧ Taken i p v p' := by
  obtain ⟨hirr, hfirst⟩ := h.seen_clear.pending_iff.mp hp
  refine ⟨_, _, by
    rw [PicPair.ack, hp, Option.bind_some, h.master.cascade, cascade_bit, decide_eq_false hi,
      if_neg (by decide)], ?_⟩
  have hn : (i : Nat) ≠ 2 := fun e => hi (Fin.ext e)
  have hlt := i.isLt
  refine ⟨⟨by omega, hn⟩, ?_, ?_, fun k hk hr => ?_, ?_⟩
  · rw [Pic.vector, h.master.offset]
    exact (BitVec.ofNat_add _ _).symm
  · rw [seen_irr, decide_eq_false hi, Bool.and_false, Bool.or_false] at hirr
    rw [requested_master, hirr]
  · -- a lower line of the master, or any of the slave, would be passed on before
    by_contra hlt'
    rcases Nat.lt_or_ge k 8 with hk8 | hk8
    · have hki : (⟨k, hk8⟩ : Fin 8) < i := by
        have := hk.2
        rw [Fin.lt_def]
        grind [priority]
      have := hfirst _ hki
      rw [seen_irr, ← requested_master, hr] at this
      simp at this
    · have h2 : (2 : Fin 8) < i := by
        have := hk.1
        rw [Fin.lt_def]
        show 2 < (i : Nat)
        grind [priority]
      have := hfirst 2 h2
      have hs : p.slave.pending.isSome = true := by
        refine h.slave_clear.pending_isSome.mpr ⟨⟨k - 8, by have := hk.1; omega⟩, ?_⟩
        rwa [← requested_slave, show 8 + (k - 8) = k by omega]
      rw [seen_irr, hs] at this
      simp at this
  · rw [if_pos hlt]
    congr 2
    exact Fin.ext (Nat.mod_eq_of_lt hlt).symm

/-- The request of a line of the slave. -/
theorem Ready.taken_slave (h : Ready p) (hp : p.seen.pending = some 2) :
    ∃ m v p', p.ack = some (v, p') ∧ Taken m p v p' := by
  obtain ⟨hirr, hfirst⟩ := h.seen_clear.pending_iff.mp hp
  rw [seen_irr, show p.master.irr.getLsbD (2 : Fin 8) = false from h.input] at hirr
  have hs : p.slave.pending.isSome = true := by simpa using hirr
  obtain ⟨j, hj⟩ := Option.isSome_iff_exists.mp hs
  obtain ⟨hjirr, hjfirst⟩ := h.slave_clear.pending_iff.mp hj
  have hlt := j.isLt
  refine ⟨8 + j, _, _, by
    rw [PicPair.ack, hp, Option.bind_some, h.master.cascade, cascade_bit, decide_eq_true rfl, if_pos rfl,
      h.slave.cascade, show (2 : BitVec 8) = BitVec.ofNat 8 (2 : Fin 8) from rfl, if_pos rfl, hj,
      Option.map_some],
    ⟨by omega, by omega⟩, ?_, ?_, fun k hk hr => ?_, ?_⟩
  · rw [Pic.vector, h.slave.offset, ← Nat.add_assoc]
    exact (BitVec.ofNat_add _ _).symm
  · rw [requested_slave, hjirr]
  · by_contra hlt'
    rcases Nat.lt_or_ge k 8 with hk8 | hk8
    · have hki : (⟨k, hk8⟩ : Fin 8) < 2 := by
        have := hk.2
        rw [Fin.lt_def]
        show k < 2
        grind [priority]
      have := hfirst _ hki
      rw [seen_irr, ← requested_master, hr] at this
      simp at this
    · have hkj : (⟨k - 8, by have := hk.1; omega⟩ : Fin 8) < j := by
        rw [Fin.lt_def]
        show k - 8 < (j : Nat)
        grind [priority]
      have := hjfirst _ hkj
      rw [← requested_slave, show 8 + (k - 8) = k by omega, hr] at this
      cases this
  · rw [if_neg (by omega)]
    congr 2
    refine Fin.ext ?_
    show (j : Nat) = (8 + j - 8) % 8
    omega

theorem Ready.pending_taken (h : Ready p) {i : Fin 8} (hp : p.seen.pending = some i) :
    ∃ m v p', p.ack = some (v, p') ∧ Taken m p v p' := by
  by_cases hi : i = 2
  · subst hi
    exact h.taken_slave hp
  · exact ⟨i, h.taken_master hi hp⟩

/-- If there is a request, one is passed on. -/
theorem Ready.ack_ok (h : Ready p) (hn : Wired n) (hr : p.requested n = true) :
    ∃ m v p', p.ack = some (v, p') ∧ Taken m p v p' := by
  have hs : p.seen.pending.isSome = true := by
    rw [h.seen_clear.pending_isSome]
    rcases Nat.lt_or_ge n 8 with hn8 | hn8
    · refine ⟨⟨n, hn8⟩, ?_⟩
      rw [seen_irr, ← requested_master, hr, Bool.true_or]
    · refine ⟨2, ?_⟩
      have : p.slave.pending.isSome = true := by
        refine h.slave_clear.pending_isSome.mpr ⟨⟨n - 8, by have := hn.1; omega⟩, ?_⟩
        rwa [← requested_slave, show 8 + (n - 8) = n by omega]
      rw [seen_irr, this]
      simp
  obtain ⟨i, hi⟩ := Option.isSome_iff_exists.mp hs
  exact h.pending_taken hi

theorem Ready.ack_taken (h : Ready p) (ha : p.ack = some (v, p')) : ∃ m, Taken m p v p' := by
  obtain ⟨i, hi⟩ : ∃ i, p.seen.pending = some i := by
    cases hp : p.seen.pending with
    | none => rw [PicPair.ack, hp] at ha; cases ha
    | some i => exact ⟨i, rfl⟩
  obtain ⟨m, v', q, ha', ht⟩ := h.pending_taken hi
  rw [ha] at ha'
  cases ha'
  exact ⟨m, ht⟩

/-! ## The invariant -/

theorem Inv.ready (h : Inv s) (hi : s.todo = none) : Ready s.pics := ⟨h.master, h.slave, h.input, h.idle hi⟩

theorem getLsbD_ofNat_two_pow {a b : Nat} (ha : a < 8) (hb : b < 8) :
    (BitVec.ofNat 8 (2 ^ a)).getLsbD b = decide (a = b) := by
  rw [← Nat.one_shiftLeft]
  exact getLsbD_ofNat_shift ha hb

theorem requested_raise (hn : Wired n) (hm : Wired m) :
    (p.raise n).requested m = (decide (n = m) || p.requested m) := by
  have hn' := hn.1
  have hm' := hm.1
  unfold PicPair.raise PicPair.requested
  split <;> split <;> simp only [BitVec.getLsbD_or]
  · rw [getLsbD_ofNat_two_pow (by omega) (by omega), Bool.or_comm]
  · rw [decide_eq_false (by omega), Bool.false_or]
  · rw [decide_eq_false (by omega), Bool.false_or]
  · rw [getLsbD_ofNat_two_pow (by omega) (by omega), Bool.or_comm, decide_eq_decide.mpr
      (by omega : n - 8 = m - 8 ↔ n = m)]

theorem raise_isr (p : PicPair) (n : Nat) :
    (p.raise n).master.isr = p.master.isr ∧ (p.raise n).slave.isr = p.slave.isr := by
  unfold PicPair.raise
  split <;> exact ⟨rfl, rfl⟩

theorem Inv.raise (h : Inv s) (hn : Wired n) :
    Inv { s with pics := s.pics.raise n, log := .raised n :: s.log } := by
  obtain ⟨hm, hs⟩ := raise_isr s.pics n
  refine ⟨?_, ?_, ?_, fun m hm => ?_, h.sound, fun ht => ?_, fun todo ht => (h.busy todo ht).congr hm hs⟩
  · unfold PicPair.raise
    split
    · exact ⟨h.master.imr, h.master.icw, h.master.offset, h.master.cascade⟩
    · exact h.master
  · unfold PicPair.raise
    split
    · exact h.slave
    · exact ⟨h.slave.imr, h.slave.icw, h.slave.offset, h.slave.cascade⟩
  · unfold PicPair.raise
    split
    · have := hn.2
      simp only [BitVec.getLsbD_or, h.input, getLsbD_ofNat_two_pow (show n < 8 from ‹_›) (show 2 < 8 by decide)]
      simpa using this
    · exact h.input
  · rw [requested_raise hn hm, h.requested m hm]
    rfl
  · rw [hm, hs]
    exact h.idle ht

/-- A request that is taken is no request any more. -/
theorem Taken.requested_now (h : Taken n p v p') (hm : Wired m) :
    p'.requested m = (!decide (n = m) && p.requested m) := by
  have hn := h.wired.1
  have hm' := hm.1
  have hb : ∀ (w : BitVec 8) {a b : Nat}, a < 8 → b < 8 →
      (w &&& ~~~Pic.bit (Fin.ofNat 8 a)).getLsbD b = (!decide (a = b) && w.getLsbD b) := by
    intro w a b ha hb
    rw [BitVec.getLsbD_and, BitVec.getLsbD_not, show (Pic.bit (Fin.ofNat 8 a)).getLsbD b = decide (a = b) from ?_,
      decide_eq_true hb, Bool.true_and, Bool.and_comm]
    rw [show Fin.ofNat 8 a = ⟨a, ha⟩ from Fin.ext (Nat.mod_eq_of_lt ha)]
    exact (Pic.getLsbD_bit (i := ⟨a, ha⟩) (j := ⟨b, hb⟩)).trans (decide_eq_decide.mpr Fin.ext_iff)
  rw [h.now]
  unfold PicPair.requested
  split <;> split <;> simp only [Pic.accept]
  · exact hb _ (by omega) (by omega)
  · -- input 2 has no line of its own
    rw [show (2 : Fin 8) = Fin.ofNat 8 2 from rfl, hb _ (by decide) (by omega),
      decide_eq_false (show 2 ≠ m from hm.2.symm), decide_eq_false (show n ≠ m by omega)]
  · rw [decide_eq_false (by omega), Bool.not_false, Bool.true_and]
  · rw [hb _ (by omega) (by omega), decide_eq_decide.mpr (by omega : n - 8 = m - 8 ↔ n = m)]

theorem Taken.serving (h : Taken n p v p') (hi : p.master.isr = 0 ∧ p.slave.isr = 0) : Serving n p' := by
  rw [h.now]
  split
  · exact ⟨.zero_or hi.1 _, .inl hi.2, fun _ => hi.2⟩
  · exact ⟨.zero_or hi.1 _, .zero_or hi.2 _, fun hn => absurd hn ‹_›⟩

theorem Taken.irq_eq (h : Taken n p v p') : v.toNat - 0x20 = n := by
  have := h.wired.1
  rw [h.vector, BitVec.toNat_ofNat]
  omega

theorem Inv.accept (h : Inv s) (ht : s.todo = none) (ha : s.pics.ack = some (v, p)) :
    Inv ⟨p, some (handler eois pit v), .served (v.toNat - 0x20) :: s.log⟩ := by
  obtain ⟨n, hn⟩ := (h.ready ht).ack_taken ha
  have hirq := hn.irq_eq
  rw [hirq]
  refine ⟨?_, ?_, ?_, fun m hm => ?_, ⟨?_, h.sound⟩, fun hc => (Option.some_ne_none _ hc).elim,
    fun todo htodo => ?_⟩
  · rw [hn.now]
    split <;> exact ⟨h.master.imr, h.master.icw, h.master.offset, h.master.cascade⟩
  · rw [hn.now]
    split <;> exact ⟨h.slave.imr, h.slave.icw, h.slave.offset, h.slave.cascade⟩
  · rw [hn.now]
    split <;> simp only [Pic.accept, BitVec.getLsbD_and, h.input, Bool.false_and]
  · rw [hn.requested_now hm, h.requested m hm]
    rfl
  · rw [← h.requested n hn.wired]
    exact hn.requested
  · cases htodo
    exact handler_ends hirq (hn.serving (h.idle ht))

theorem Inv.spurious (h : Inv s) (ht : s.todo = none) (hn : n = 7 ∨ n = 15) :
    Inv ⟨spuriousIsr n s.pics, some (irqHandler eois (BitVec.ofNat 8 (0x20 + n))), .spurious n :: s.log⟩ := by
  obtain ⟨hm, hs⟩ := h.idle ht
  have hirq : (BitVec.ofNat 8 (0x20 + n)).toNat - 0x20 = n := by
    rw [BitVec.toNat_ofNat]
    omega
  have hserving : Serving n (spuriousIsr n s.pics) := by
    unfold spuriousIsr
    split
    · exact ⟨.inl hm, .inl hs, fun _ => hs⟩
    · exact ⟨.zero_or hm 2, .inl hs, fun _ => hs⟩
  refine ⟨?_, ?_, ?_, fun m hm => ?_, h.sound, fun hc => (Option.some_ne_none _ hc).elim, fun todo htodo => ?_⟩
  · unfold spuriousIsr
    split
    · exact h.master
    · exact ⟨h.master.imr, h.master.icw, h.master.offset, h.master.cascade⟩
  · unfold spuriousIsr
    split <;> exact h.slave
  · unfold spuriousIsr
    split <;> exact h.input
  · refine Eq.trans ?_ (h.requested m hm)
    unfold spuriousIsr
    split <;> rfl
  · cases htodo
    exact irqHandler_ends hirq hserving

theorem Inv.port (h : Inv s) (ht : s.todo = some (o :: ops)) :
    Inv { s with pics := o.exec s.pics, todo := some ops } := by
  have he := h.busy _ ht
  obtain ⟨km, ks, -, -⟩ := (he.quiet o (List.mem_cons_self ..)).exec_keeps s.pics
  refine ⟨h.master.keeps km, h.slave.keeps ks, ?_, fun m hm => ?_, h.sound, fun hc => (Option.some_ne_none _ hc).elim,
    fun todo htodo => ?_⟩
  · rw [km.irr]
    exact h.input
  · refine Eq.trans ?_ (h.requested m hm)
    unfold PicPair.requested
    rw [km.irr, ks.irr]
  · cases htodo
    exact he.step

theorem Inv.iret (h : Inv s) (ht : s.todo = some []) : Inv { s with todo := none } :=
  ⟨h.master, h.slave, h.input, h.requested, h.sound, fun _ => ⟨(h.busy _ ht).master, (h.busy _ ht).slave⟩,
    fun _ hc => (Option.some_ne_none _ hc.symm).elim⟩

theorem inv_step (h : Inv s) (hs : Step eois s s') : Inv s' := by
  cases hs with
  | raise n hn => exact h.raise hn
  | accept pit ht ha => exact h.accept ht ha
  | spurious n ht hn => exact h.spurious ht hn
  | port ht => exact h.port ht
  | iret ht => exact h.iret ht

theorem inv_booted (p : PicPair) : Inv (booted p) := by
  obtain ⟨hm, hs, him, his, h0, h1⟩ := configure_ok p
  refine ⟨hm, hs, ?_, fun n hn => ?_, trivial, fun _ => ⟨h0, h1⟩,
    fun _ hc => (Option.some_ne_none _ hc.symm).elim⟩
  · rw [booted, him]
    rfl
  · simp only [PicPair.requested, booted, him, his, waiting]
    split <;> exact BitVec.getLsbD_zero

theorem inv_run (hr : ReflTransGen (Step eois) (booted p) s) : Inv s := by
  induction hr with
  | refl => exact inv_booted p
  | tail _ hs ih => exact inv_step ih hs

/-- From any state of the two controllers, and whatever ends of interrupt the routines send. -/
theorem irq_run (eois : Nat → List Nat) (p : PicPair) (s : State) (hr : ReflTransGen (Step eois) (booted p) s) :
    Sound s.log ∧ (∀ n, Wired n → s.pics.requested n = waiting n s.log) ∧
      (s.todo = none → s.pics.master.isr = 0 ∧ s.pics.slave.isr = 0 ∧
        ∀ n, Wired n → waiting n s.log = true → ∃ m q, s.pics.ack = some (BitVec.ofNat 8 (0x20 + m), q) ∧
          waiting m s.log = true ∧ ∀ k, Wired k → waiting k s.log = true → priority m ≤ priority k) := by
  have h := inv_run hr
  refine ⟨h.sound, h.requested, fun ht => ⟨(h.idle ht).1, (h.idle ht).2, fun n hn hw => ?_⟩⟩
  obtain ⟨m, v, q, ha, hm⟩ := (h.ready ht).ack_ok hn (by rw [h.requested n hn, hw])
  refine ⟨m, q, by rw [ha, hm.vector], ?_, fun k hk hwk => hm.first k hk (by rw [h.requested k hk, hwk])⟩
  rw [← h.requested m hm.wired]
  exact hm.requested

end

def cold : PicPair :=
  let pic : Pic := ⟨0, 0, 0xFF, .ready, false, false, 0, 0, 0, false⟩
  ⟨pic, pic⟩

/-- The keyboard, and a host controller at line 12. -/
theorem irq_run_two :
    let s : State := ⟨((booted cold).pics.raise 1).raise 12, none, [.raised 12, .raised 1]⟩
    ∃ m q, s.pics.ack = some (BitVec.ofNat 8 (0x20 + m), q) ∧ priority m ≤ priority 1 := by
  intro s
  have hr : ReflTransGen (Step (kernelEois 12)) (booted cold) s :=
    (ReflTransGen.single (.raise 1 ⟨by decide, by decide⟩)).tail (.raise 12 ⟨by decide, by decide⟩)
  obtain ⟨-, -, h⟩ := irq_run (kernelEois 12) cold s hr
  obtain ⟨-, -, h⟩ := h rfl
  obtain ⟨m, q, ha, -, hm⟩ := h 1 ⟨by decide, by decide⟩ rfl
  exact ⟨m, q, ha, hm 1 ⟨by decide, by decide⟩ rfl⟩

end AlexOS.Irq
