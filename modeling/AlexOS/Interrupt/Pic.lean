import AlexOS.Lib.Pic

/-!
# pic.c

The functions of the driver, as what they write to the two controllers. After
`i686_PIC_Configure` both are in the same state, whatever state they were in
(`configure_ok`), and `i686_PIC_Mask` and `i686_PIC_Unmask` change the bit of
their line only (`mask_ok`, `unmask_ok`).
-/

namespace AlexOS.Interrupt

open PicOp

def picConfigure (offsetPic1 offsetPic2 : BitVec 8) : List PicOp :=
  [.command1 0x11, .command2 0x11, .data1 offsetPic1, .data2 offsetPic2,
   .data1 0x04,  -- slave on IRQ2
   .data2 0x02,  -- tell the slave its id
   .data1 0x01, .data2 0x01, .data1 0, .data2 0]

def picSendEOI (irq : Nat) : List PicOp := (if 8 ≤ irq then [.command2 0x20] else []) ++ [.command1 0x20]

/-- `i686_PIC_Mask`, of a controller that is initialised. -/
def picMask (irq : Nat) (p : PicPair) : PicPair :=
  if irq < 8 then (PicOp.data1 (p.master.imr ||| BitVec.ofNat 8 (1 <<< irq))).exec p
  else (PicOp.data2 (p.slave.imr ||| BitVec.ofNat 8 (1 <<< (irq - 8)))).exec p

def picUnmask (irq : Nat) (p : PicPair) : PicPair :=
  if irq < 8 then (PicOp.data1 (p.master.imr &&& ~~~BitVec.ofNat 8 (1 <<< irq))).exec p
  else (PicOp.data2 (p.slave.imr &&& ~~~BitVec.ofNat 8 (1 <<< (irq - 8)))).exec p

/-- `i686_PIC_ReadIRQRequestRegister` -/
def picReadIrr : List PicOp := [.command1 0x0A, .command2 0x0A, .read1, .read2]

/-- `i686_PIC_ReadInServiceRegister` -/
def picReadIsr : List PicOp := [.command1 0x0B, .command2 0x0B, .read1, .read2]

/-- A controller after `picConfigure`. -/
structure Configured (offset cascade : BitVec 8) (p : Pic) : Prop where
  imr : p.imr = 0
  icw : p.icw = .ready
  offset : p.offset = offset
  cascade : p.cascade = cascade

section

variable {p : PicPair} {n m : Nat} {ops : List PicOp} {offset cascade : BitVec 8}

theorem configure_ok (p : PicPair) :
    let q := run (picConfigure 0x20 0x28) p
    Configured 0x20 4 q.master ∧ Configured 0x28 2 q.slave ∧ q.master.irr = 0 ∧ q.slave.irr = 0 ∧
      q.master.isr = 0 ∧ q.slave.isr = 0 :=
  ⟨⟨rfl, rfl, rfl, rfl⟩, ⟨rfl, rfl, rfl, rfl⟩, rfl, rfl, rfl, rfl⟩

theorem Configured.keeps {a b : Pic} (h : Configured offset cascade a) (hk : a.Keeps b) : Configured offset cascade b :=
  ⟨hk.imr.trans h.imr, hk.icw.trans h.icw, hk.offset.trans h.offset, hk.cascade.trans h.cascade⟩

/-- Line `n` is masked. -/
def masked (p : PicPair) (n : Nat) : Bool := if n < 8 then p.master.imr.getLsbD n else p.slave.imr.getLsbD (n - 8)

theorem getLsbD_ofNat_shift (hm : m < 8) (hn : n < 8) : (BitVec.ofNat 8 (1 <<< m)).getLsbD n = decide (m = n) := by
  have : ∀ a b : Fin 8, (BitVec.ofNat 8 (1 <<< a.val)).getLsbD b.val = decide (a.val = b.val) := by decide
  exact this ⟨m, hm⟩ ⟨n, hn⟩

theorem getLsbD_set (w : BitVec 8) (hm : m < 8) (hn : n < 8) :
    (w ||| BitVec.ofNat 8 (1 <<< m)).getLsbD n = (w.getLsbD n || decide (m = n)) := by
  rw [BitVec.getLsbD_or, getLsbD_ofNat_shift hm hn]

theorem getLsbD_clear (w : BitVec 8) (hm : m < 8) (hn : n < 8) :
    (w &&& ~~~BitVec.ofNat 8 (1 <<< m)).getLsbD n = (w.getLsbD n && !decide (m = n)) := by
  rw [BitVec.getLsbD_and, BitVec.getLsbD_not, getLsbD_ofNat_shift hm hn, decide_eq_true hn, Bool.true_and]

theorem mask_ok (hm : p.master.icw = .ready) (hs : p.slave.icw = .ready) (hn : n < 16) (hk : m < 16) :
    masked (picMask n p) m = (masked p m || decide (n = m)) := by
  unfold picMask masked
  split <;> split <;> simp only [exec, Pic.data, hm, hs]
  · exact getLsbD_set _ (by omega) (by omega)
  · rw [decide_eq_false (by omega), Bool.or_false]
  · rw [decide_eq_false (by omega), Bool.or_false]
  · rw [getLsbD_set _ (by omega) (by omega)]
    congr 2
    apply propext
    omega

theorem unmask_ok (hm : p.master.icw = .ready) (hs : p.slave.icw = .ready) (hn : n < 16) (hk : m < 16) :
    masked (picUnmask n p) m = (masked p m && !decide (n = m)) := by
  unfold picUnmask masked
  split <;> split <;> simp only [exec, Pic.data, hm, hs]
  · exact getLsbD_clear _ (by omega) (by omega)
  · rw [decide_eq_false (by omega), Bool.not_false, Bool.and_true]
  · rw [decide_eq_false (by omega), Bool.not_false, Bool.and_true]
  · rw [getLsbD_clear _ (by omega) (by omega)]
    congr 3
    apply propext
    omega

/-! ## What is sent does to what is in service -/

theorem sendEOI_quiet (n : Nat) : ∀ o ∈ picSendEOI n, Quiet o := by
  intro o ho
  rw [picSendEOI] at ho
  split at ho <;> simp at ho
  · obtain rfl | rfl := ho
    · exact .head _
    · exact .head _
  · rw [ho]
    exact .head _

theorem readIrr_quiet : ∀ o ∈ picReadIrr, Quiet o := by
  simp [picReadIrr, Quiet]

theorem readIsr_quiet : ∀ o ∈ picReadIsr, Quiet o := by
  simp [picReadIsr, Quiet]

/-- At most one interrupt is in service, and none on the slave for a line of the master. -/
structure Serving (n : Nat) (p : PicPair) : Prop where
  master : OneBit p.master.isr
  slave : OneBit p.slave.isr
  own : n < 8 → p.slave.isr = 0

theorem Serving.exec {o : PicOp} (h : Serving n p) (ho : Quiet o) : Serving n (o.exec p) := by
  obtain ⟨-, -, hm, hs⟩ := ho.exec_keeps p
  refine ⟨h.master.ended hm, h.slave.ended hs, fun hn => ?_⟩
  have h0 := h.own hn
  rw [Pic.Ended, h0] at hs
  exact hs.elim id id

theorem Serving.run_all (h : Serving n p) (ho : ∀ o ∈ ops, Quiet o) : Serving n (run ops p) := by
  induction ops generalizing p with
  | nil => exact h
  | cons o ops ih =>
    rw [List.forall_mem_cons] at ho
    exact ih (h.exec ho.1) ho.2

/-- The end of the interrupt. -/
theorem Serving.sendEOI (h : Serving n p) :
    (run (picSendEOI n) p).master.isr = 0 ∧ (run (picSendEOI n) p).slave.isr = 0 := by
  unfold picSendEOI
  split
  · exact ⟨h.master.eoi, h.slave.eoi⟩
  · exact ⟨h.master.eoi, h.own (by omega)⟩

/-- What is in service depends on nothing else. -/
theorem isr_congr {q : PicPair} (ho : ∀ o ∈ ops, Quiet o) (hm : q.master.isr = p.master.isr)
    (hs : q.slave.isr = p.slave.isr) :
    (run ops q).master.isr = (run ops p).master.isr ∧ (run ops q).slave.isr = (run ops p).slave.isr := by
  induction ops generalizing p q with
  | nil => exact ⟨hm, hs⟩
  | cons o ops ih =>
    rw [List.forall_mem_cons] at ho
    have hc : ∀ {a b : Pic} {v}, v ∈ [(0x20 : BitVec 8), 0x0A, 0x0B] → b.isr = a.isr →
        (b.command v).isr = (a.command v).isr := by
      intro a b v hv h
      simp at hv
      obtain rfl | rfl | rfl := hv
      · exact congrArg Pic.eoi h
      · exact h
      · exact h
    refine ih ho.2 ?_ ?_
    · cases o with
      | command1 v => exact hc ho.1 hm
      | _ => first | exact hm | exact absurd ho.1 id
    · cases o with
      | command2 v => exact hc ho.1 hs
      | _ => first | exact hs | exact absurd ho.1 id

end

end AlexOS.Interrupt
