import Mathlib.Data.BitVec
import Mathlib.Algebra.Group.Nat.Defs

/-!
# A pair of 8259 interrupt controllers

The controller (`Pic`): its initialisation words, one after another from any
state; the mask, the nonspecific end of interrupt, the choice of the register
that is read; which request it passes on, in fully nested mode (`Pic.pending`).
In the pair the slave's output is input 2 of the master.

Commands that are no initialisation (`Quiet`) leave requests, masks and vectors
as they are (`Quiet.exec_keeps`), and an end of interrupt clears what one
interrupt has set (`OneBit.eoi`).
-/

namespace AlexOS

/-- The initialisation word that is written next to the data port. -/
inductive Icw
  | ready | icw2 | icw3 | icw4
  deriving DecidableEq

structure Pic where
  irr : BitVec 8
  isr : BitVec 8
  imr : BitVec 8
  icw : Icw
  single : Bool
  /-- ICW4 is written too. -/
  full : Bool
  offset : BitVec 8
  cascade : BitVec 8
  mode : BitVec 8
  readIsr : Bool

namespace Pic

/-- The in-service bit of the highest priority is cleared. -/
def eoi (w : BitVec 8) : BitVec 8 := w &&& (w - 1)

def command (p : Pic) (v : BitVec 8) : Pic :=
  if v.getLsbD 4 then
    { p with
      irr := 0, isr := 0, imr := 0, icw := .icw2, single := v.getLsbD 1, full := v.getLsbD 0,
      mode := 0, readIsr := false }
  else if v.getLsbD 3 then if v.getLsbD 1 then { p with readIsr := v.getLsbD 0 } else p
  else if v = 0x20 then { p with isr := eoi p.isr }
  else p

def data (p : Pic) (v : BitVec 8) : Pic :=
  match p.icw with
  | .ready => { p with imr := v }
  | .icw2 => { p with offset := v &&& 0xF8, icw := if p.single then (if p.full then .icw4 else .ready) else .icw3 }
  | .icw3 => { p with cascade := v, icw := if p.full then .icw4 else .ready }
  | .icw4 => { p with mode := v, icw := .ready }

/-- The request that goes out: that of the highest priority, if nothing of this priority or a higher one
is in service. -/
def pending (p : Pic) : Option (Fin 8) :=
  (List.finRange 8).find? fun i => p.irr.getLsbD i && !p.imr.getLsbD i && (List.finRange 8).all fun j =>
    decide (i < j) || !p.isr.getLsbD j

def bit (i : Fin 8) : BitVec 8 := 1#8 <<< i.val

/-- The request is acknowledged. -/
def accept (p : Pic) (i : Fin 8) : Pic := { p with irr := p.irr &&& ~~~bit i, isr := p.isr ||| bit i }

def vector (p : Pic) (i : Fin 8) : BitVec 8 := p.offset + BitVec.ofNat 8 i

/-- What the command port reads. -/
def status (p : Pic) : BitVec 8 := if p.readIsr then p.isr else p.irr

end Pic

structure PicPair where
  master : Pic
  slave : Pic

/-- Writes to the ports, and reads. -/
inductive PicOp
  | command1 (v : BitVec 8)
  | data1 (v : BitVec 8)
  | command2 (v : BitVec 8)
  | data2 (v : BitVec 8)
  | read1
  | read2

namespace PicOp

def exec : PicOp → PicPair → PicPair
  | .command1 v, p => { p with master := p.master.command v }
  | .data1 v, p => { p with master := p.master.data v }
  | .command2 v, p => { p with slave := p.slave.command v }
  | .data2 v, p => { p with slave := p.slave.data v }
  | .read1, p => p
  | .read2, p => p

def run (ops : List PicOp) (p : PicPair) : PicPair := ops.foldl (fun p o => o.exec p) p

/-- An end of interrupt, the choice of a register, or a read. -/
def Quiet : PicOp → Prop
  | .command1 v => v ∈ [0x20, 0x0A, 0x0B]
  | .command2 v => v ∈ [0x20, 0x0A, 0x0B]
  | .data1 _ => False
  | .data2 _ => False
  | .read1 => True
  | .read2 => True

end PicOp

namespace PicPair

/-- The master as it sees its inputs. -/
def seen (p : PicPair) : Pic :=
  { p.master with irr := if p.slave.pending.isSome then p.master.irr ||| Pic.bit 2 else p.master.irr }

/-- The acknowledge cycle: the vector, and what is in service from then on. The slave answers if the master is told
of a slave on the input, and the slave that it is this one. -/
def ack (p : PicPair) : Option (BitVec 8 × PicPair) :=
  p.seen.pending.bind fun i =>
    if p.master.cascade.getLsbD i then
      if p.slave.cascade = BitVec.ofNat 8 i then
        p.slave.pending.map fun j => (p.slave.vector j, ⟨p.master.accept i, p.slave.accept j⟩)
      else none
    else some (p.master.vector i, { p with master := p.master.accept i })

/-- Line `n` is raised, the lines of the slave after those of the master. -/
def raise (p : PicPair) (n : Nat) : PicPair :=
  if n < 8 then { p with master := { p.master with irr := p.master.irr ||| BitVec.ofNat 8 (2 ^ n) } }
  else { p with slave := { p.slave with irr := p.slave.irr ||| BitVec.ofNat 8 (2 ^ (n - 8)) } }

/-- Line `n` has raised a request that is not acknowledged yet. -/
def requested (p : PicPair) (n : Nat) : Bool := if n < 8 then p.master.irr.getLsbD n else p.slave.irr.getLsbD (n - 8)

end PicPair

/-- At most one interrupt is in service. -/
def OneBit (w : BitVec 8) : Prop := w = 0 ∨ ∃ i, w = Pic.bit i

section

variable {p : Pic} {q : PicPair} {i j : Fin 8} {w v : BitVec 8} {n m : Nat} {o : PicOp} {ops ops' : List PicOp}

/-! ## Bits -/

@[simp] theorem Pic.getLsbD_bit : (Pic.bit i).getLsbD j = decide (i = j) := by
  revert i j
  decide

@[simp] theorem Pic.eoi_zero : Pic.eoi 0 = 0 := rfl

theorem OneBit.zero : OneBit 0 := .inl rfl

theorem OneBit.zero_or (h : w = 0) (i : Fin 8) : OneBit (w ||| Pic.bit i) := by
  rw [h]
  exact .inr ⟨i, BitVec.zero_or⟩

theorem OneBit.eoi (h : OneBit w) : Pic.eoi w = 0 := by
  obtain rfl | ⟨i, rfl⟩ := h
  · rfl
  · revert i
    decide

/-! ## The request that goes out -/

namespace Pic

/-- Nothing is in service, and nothing is masked. -/
structure Clear (p : Pic) : Prop where
  isr : p.isr = 0
  imr : p.imr = 0

theorem Clear.pending_iff (h : p.Clear) :
    p.pending = some i ↔ p.irr.getLsbD i = true ∧ ∀ j < i, p.irr.getLsbD j = false := by
  rw [pending, List.find?_eq_some_iff_getElem]
  simp [h.isr, h.imr]
  refine fun _ => ⟨fun hex j hj => ?_,
    fun hall => ⟨i, ⟨i.isLt, rfl⟩, fun j hj => hall ⟨j, hj.trans i.isLt⟩ hj⟩⟩
  obtain ⟨k, ⟨_, rfl⟩, hlt⟩ := hex
  exact hlt j hj

theorem Clear.pending_isSome (h : p.Clear) : p.pending.isSome = true ↔ ∃ i : Fin 8, p.irr.getLsbD i = true := by
  simp [pending, h.isr, h.imr]

end Pic

/-! ## Commands -/

namespace PicOp

@[simp] theorem run_nil (q : PicPair) : run [] q = q := rfl

@[simp] theorem run_cons (o : PicOp) (ops : List PicOp) (q : PicPair) : run (o :: ops) q = run ops (o.exec q) := rfl

theorem run_append (ops ops' : List PicOp) (q : PicPair) : run (ops ++ ops') q = run ops' (run ops q) :=
  List.foldl_append

end PicOp

/-- What a quiet command leaves as it is. -/
structure Pic.Keeps (p p' : Pic) : Prop where
  irr : p'.irr = p.irr
  imr : p'.imr = p.imr
  icw : p'.icw = p.icw
  offset : p'.offset = p.offset
  cascade : p'.cascade = p.cascade

namespace Pic.Keeps

theorem refl (p : Pic) : p.Keeps p := ⟨rfl, rfl, rfl, rfl, rfl⟩

theorem trans {p p' p'' : Pic} (h : p.Keeps p') (h' : p'.Keeps p'') : p.Keeps p'' :=
  ⟨h'.irr.trans h.irr, h'.imr.trans h.imr, h'.icw.trans h.icw, h'.offset.trans h.offset, h'.cascade.trans h.cascade⟩

end Pic.Keeps

theorem Pic.command_quiet (p : Pic) (h : v ∈ [(0x20 : BitVec 8), 0x0A, 0x0B]) :
    p.Keeps (p.command v) ∧ ((p.command v).isr = p.isr ∨ (p.command v).isr = eoi p.isr) := by
  simp at h
  obtain rfl | rfl | rfl := h
  · exact ⟨⟨rfl, rfl, rfl, rfl, rfl⟩, .inr rfl⟩
  · exact ⟨⟨rfl, rfl, rfl, rfl, rfl⟩, .inl rfl⟩
  · exact ⟨⟨rfl, rfl, rfl, rfl, rfl⟩, .inl rfl⟩

/-- What is in service after some ends of interrupt. -/
def Pic.Ended (w w' : BitVec 8) : Prop := w' = w ∨ w' = eoi w

theorem PicOp.Quiet.exec_keeps (h : o.Quiet) (q : PicPair) :
    q.master.Keeps (o.exec q).master ∧ q.slave.Keeps (o.exec q).slave ∧
      Pic.Ended q.master.isr (o.exec q).master.isr ∧ Pic.Ended q.slave.isr (o.exec q).slave.isr := by
  cases o with
  | command1 v =>
    obtain ⟨hk, hi⟩ := q.master.command_quiet h
    exact ⟨hk, .refl _, hi, .inl rfl⟩
  | command2 v =>
    obtain ⟨hk, hi⟩ := q.slave.command_quiet h
    exact ⟨.refl _, hk, .inl rfl, hi⟩
  | data1 v => exact absurd h id
  | data2 v => exact absurd h id
  | read1 => exact ⟨.refl _, .refl _, .inl rfl, .inl rfl⟩
  | read2 => exact ⟨.refl _, .refl _, .inl rfl, .inl rfl⟩

theorem OneBit.ended (h : OneBit w) (h' : Pic.Ended w v) : OneBit v := by
  obtain rfl | rfl := h'
  · exact h
  · exact .inl h.eoi

end

end AlexOS
