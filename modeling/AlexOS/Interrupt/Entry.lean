import AlexOS.Lib.Trap

/-!
# Entry to and return from interrupts

`isr.asm`: the 256 stubs, which `generate_isr.sh` writes, and `isr_common`. The
words that they leave on the stack are the `Register` that
`i686_ISR_Handler` gets a pointer to (`entered_register`), and what is in this
structure when the handler returns is what the interrupted code goes on with
(`resumed_ok`).
-/

namespace AlexOS.Interrupt

open Mem I386

/-- The vectors of `ISR_ERRORCODE`, for which the CPU pushes an error code. -/
def hasErrorCode (v : BitVec 8) : Bool := v ∈ [8, 10, 11, 12, 13, 14, 17, 21]

/-- `ISR_NOERRORCODE` and `ISR_ERRORCODE`. -/
def isrStub (v : BitVec 8) : List Op :=
  (if hasErrorCode v then [] else [.pushImm 0]) ++ [.pushImm (v.setWidth 32)]

/-- `isr_common`, up to the call of `i686_ISR_Handler`. -/
def isrCommonEntry : List Op :=
  [.pusha,
   .clear .eax,  -- save ds
   .loadSeg .eax .ds,
   .push .eax,
   .moveLow .eax 0x10,  -- use kernel data segment
   .storeSeg .ds .eax,
   .storeSeg .es .eax,
   .storeSeg .fs .eax,
   .storeSeg .gs .eax,
   .push .esp]

/-- The rest of it. -/
def isrCommonExit : List Op :=
  [.add .esp 4,
   .pop .eax,
   .storeSeg .ds .eax,
   .storeSeg .es .eax,
   .storeSeg .fs .eax,
   .storeSeg .gs .eax,
   .popa,
   .add .esp 8,
   .iret]

/-- `Register`. The last two fields are pushed by the CPU only where the privilege level changes. -/
structure Register where
  ds : Word
  edi : Word
  esi : Word
  ebp : Word
  kernEsp : Word
  ebx : Word
  edx : Word
  ecx : Word
  eax : Word
  interrupt : Word
  error : Word
  eip : Word
  cs : Word
  eflags : Word
  esp : Word
  ss : Word

def Register.read (m : Mem) (p : Addr) : Register where
  ds := m.load32 p
  edi := m.load32 (p + 4)
  esi := m.load32 (p + 8)
  ebp := m.load32 (p + 12)
  kernEsp := m.load32 (p + 16)
  ebx := m.load32 (p + 20)
  edx := m.load32 (p + 24)
  ecx := m.load32 (p + 28)
  eax := m.load32 (p + 32)
  interrupt := m.load32 (p + 36)
  error := m.load32 (p + 40)
  eip := m.load32 (p + 44)
  cs := m.load32 (p + 48)
  eflags := m.load32 (p + 52)
  esp := m.load32 (p + 56)
  ss := m.load32 (p + 60)

/-- Where the code is. -/
structure Labels where
  stub : BitVec 8 → Addr
  handler : Addr
  /-- After the call in `isr_common`. -/
  back : Addr

/-- An interrupt, with its error code. -/
structure Event where
  vector : BitVec 8
  error : Option Word
  coded : error.isSome = hasErrorCode vector

/-- The words of the frame, from the lowest address on. -/
def frameWords (c : Core) (e : Event) : List Word :=
  [(c.seg .ds).setWidth 32, c.regs .edi, c.regs .esi, c.regs .ebp, c.regs .esp - 20, c.regs .ebx, c.regs .edx,
    c.regs .ecx, c.regs .eax, e.vector.setWidth 32, e.error.getD 0, c.eip, c.cs.setWidth 32, c.eflags]

/-- At the entry of `i686_ISR_Handler`. -/
def entered (L : Labels) (e : Event) (c : Core) : Core :=
  runOps (isrStub e.vector ++ isrCommonEntry ++ [.call L.handler L.back])
    (c.interrupt 0x08 (L.stub e.vector) e.error)

/-- When the handler has returned, up to the interrupted code. -/
def resumed (h : Core) : Core := runOps isrCommonExit h

section

variable {L : Labels} {e : Event} {c h : Core} {q : Reg} {p : Addr}

/-! ## Entry -/

/-- What the CPU and the stub push. -/
theorem stub_ok (L : Labels) (e : Event) (hroom : 64 ≤ (c.regs .esp).toNat) :
    let d := runOps (isrStub e.vector) (c.interrupt 0x08 (L.stub e.vector) e.error)
    c.Deeper d [e.vector.setWidth 32, e.error.getD 0, c.eip, c.cs.setWidth 32, c.eflags] ∧
      (∀ q, q ≠ .esp → d.regs q = c.regs q) ∧ d.seg = c.seg := by
  intro d
  have h₀ : c.Deeper (c.interrupt 0x08 (L.stub e.vector) e.error)
    (e.error.toList ++ [c.eip, c.cs.setWidth 32, c.eflags]) :=
    Core.interrupt_deeper (by omega)
  have hregs : ∀ q, q ≠ .esp → (c.interrupt 0x08 (L.stub e.vector) e.error).regs q = c.regs q := fun q hq =>
    Core.interrupt_regs hq
  have hseg : (c.interrupt 0x08 (L.stub e.vector) e.error).seg = c.seg := Core.interrupt_seg
  obtain ⟨v, error, hcoded⟩ := e
  cases error with
  | none =>
    have hstub : isrStub v = [.pushImm 0, .pushImm (v.setWidth 32)] := by
      rw [isrStub, ← hcoded]
      rfl
    have h₁ := h₀.push (show 16 ≤ _ by omega) 0
    have h₂ := h₁.push (show 20 ≤ _ by omega) (v.setWidth 32)
    simp only [d, hstub, runOps_cons, runOps_nil, Op.exec]
    refine ⟨h₂, fun q hq => ?_, hseg⟩
    rw [Core.push_regs_of_ne hq, Core.push_regs_of_ne hq, hregs q hq]
  | some code =>
    have hstub : isrStub v = [.pushImm (v.setWidth 32)] := by
      rw [isrStub, ← hcoded]
      rfl
    have h₁ := h₀.push (show 20 ≤ _ by omega) (v.setWidth 32)
    simp only [d, hstub, runOps_cons, runOps_nil, Op.exec]
    refine ⟨h₁, fun q hq => ?_, hseg⟩
    rw [Core.push_regs_of_ne hq, hregs q hq]

theorem entered_ok (L : Labels) (e : Event) (hroom : 64 ≤ (c.regs .esp).toNat) :
    c.Deeper (entered L e c) (L.back :: (c.regs .esp - 56) :: frameWords c e) ∧ (entered L e c).eip = L.handler ∧
      ∀ s, (entered L e c).seg s = 0x10 := by
  obtain ⟨h, hregs, hseg⟩ := stub_ok L e hroom
  rw [entered, runOps_append, runOps_append]
  generalize runOps (isrStub e.vector) _ = d at h hregs hseg
  have hesp : d.regs .esp = c.regs .esp - 20 := h.esp_eq
  have hp := h.pusha (show 52 ≤ _ by omega)
  rw [hregs .edi (by decide), hregs .esi (by decide), hregs .ebp (by decide), hregs .ebx (by decide),
    hregs .edx (by decide), hregs .ecx (by decide), hregs .eax (by decide), hesp] at hp
  simp only [isrCommonEntry, runOps_cons, runOps_nil]
  have hseg₁ : (Op.pusha.exec d).seg = c.seg := hseg
  generalize Op.pusha.exec d = d₁ at hp hseg₁
  have hesp₁ : d₁.regs .esp = c.regs .esp - 52 := hp.esp_eq
  -- the data segment, and the pointer to the frame
  have hds := hp.push (show 56 ≤ _ by omega) ((c.seg .ds).setWidth 32)
  have harg := hds.push (show 60 ≤ _ by omega) (c.regs .esp - 56)
  have hcall := harg.push (show 64 ≤ _ by omega) L.back
  refine ⟨Core.Deeper.congr hcall ?_ ?_, rfl, fun s => ?_⟩
  · simp [Op.exec, hseg₁, hesp₁, sub_sub]
  · simp [Op.exec]
  · cases s <;> simp [Op.exec, Core.setSeg]

/-! ## Return -/

/-- What the interrupted code goes on with. -/
theorem resumed_ok (h : Core) :
    let r := Register.read h.mem (h.regs .esp + 4)
    (resumed h).regs .edi = r.edi ∧ (resumed h).regs .esi = r.esi ∧ (resumed h).regs .ebp = r.ebp ∧
      (resumed h).regs .ebx = r.ebx ∧ (resumed h).regs .edx = r.edx ∧ (resumed h).regs .ecx = r.ecx ∧
      (resumed h).regs .eax = r.eax ∧ (resumed h).regs .esp = h.regs .esp + 60 ∧ (resumed h).eip = r.eip ∧
      (resumed h).cs = r.cs.setWidth 16 ∧ (resumed h).eflags = r.eflags ∧
      (∀ s, (resumed h).seg s = r.ds.setWidth 16) ∧ (resumed h).mem = h.mem := by
  simp [resumed, isrCommonExit, Op.exec, Register.read, add_assoc, Core.setSeg]
  intro s
  cases s <;> simp

/-! ## Interrupted code -/

/-- The same for code that uses neither `W` nor what is below its stack pointer. -/
structure Same (W : Set Nat) (lo : Nat) (c d : Core) : Prop where
  regs : d.regs = c.regs
  seg : d.seg = c.seg
  cs : d.cs = c.cs
  eflags : d.eflags = c.eflags
  eip : d.eip = c.eip
  mem : Changes (W ∪ Set.Ico lo (c.regs .esp).toNat) c.mem d.mem

theorem Same.refl (W : Set Nat) (lo : Nat) (c : Core) : Same W lo c c := ⟨rfl, rfl, rfl, rfl, rfl, .refl _ _⟩

theorem Same.trans {W : Set Nat} {lo : Nat} {c d d' : Core} (h : Same W lo c d) (h' : Same W lo d d') :
    Same W lo c d' := by
  have hm := h'.mem
  rw [h.regs] at hm
  exact ⟨h'.regs.trans h.regs, h'.seg.trans h.seg, h'.cs.trans h.cs, h'.eflags.trans h.eflags, h'.eip.trans h.eip,
    h.mem.trans hm⟩

/-- A handler, whose stack goes from `top` down to `lo`: it writes `W` and its
stack, and is interrupted in turn. -/
inductive HandlerRun (L : Labels) (W : Set Nat) (lo : Nat) : Nat → Core → Core → Prop
  | refl (top : Nat) (a : Core) : HandlerRun L W lo top a a
  | own {top : Nat} {a b d : Core} : HandlerRun L W lo top a b → Changes (W ∪ Set.Ico lo top) b.mem d.mem →
      (d.regs .esp).toNat ≤ top → HandlerRun L W lo top a d
  | nested {top : Nat} {a b h : Core} (e : Event) : HandlerRun L W lo top a b → lo + 64 ≤ (b.regs .esp).toNat →
      HandlerRun L W lo ((b.regs .esp).toNat - 56) (entered L e b) h → h.regs .esp = b.regs .esp - 60 →
      HandlerRun L W lo top a (resumed h)

/-- The code that `step` runs, from `c` on: at any point of it there may be an interrupt. -/
inductive InterruptedRun (L : Labels) (W : Set Nat) (lo hi : Nat) (step : Core → Core) (c : Core) : Core → Prop
  | refl : InterruptedRun L W lo hi step c c
  | own {b : Core} : InterruptedRun L W lo hi step c b → InterruptedRun L W lo hi step c (step b)
  | interrupt {b h : Core} (e : Event) : InterruptedRun L W lo hi step c b → lo + 64 ≤ (b.regs .esp).toNat →
      (b.regs .esp).toNat ≤ hi → (∀ s, b.seg s = b.seg .ds) →
      HandlerRun L W lo ((b.regs .esp).toNat - 56) (entered L e b) h → h.regs .esp = b.regs .esp - 60 →
      InterruptedRun L W lo hi step c (resumed h)

variable {W : Set Nat} {lo hi top : Nat} {a b : Core} {step : Core → Core}

theorem entered_changes (L : Labels) (e : Event) (hroom : lo + 64 ≤ (b.regs .esp).toNat)
    (htop : (b.regs .esp).toNat ≤ top) :
    Changes (Set.Ico lo top) b.mem (entered L e b).mem := by
  obtain ⟨h, -, -⟩ := entered_ok (c := b) L e (by omega)
  refine h.changes.mono fun k hk => ?_
  have hesp := h.esp
  rw [Set.mem_Ico] at hk ⊢
  simp [frameWords] at hesp
  omega

theorem HandlerRun.changes (hr : HandlerRun L W lo top a b) (ha : (a.regs .esp).toNat ≤ top) :
    Changes (W ∪ Set.Ico lo top) a.mem b.mem ∧ (b.regs .esp).toNat ≤ top := by
  induction hr with
  | refl => exact ⟨.refl _ _, ha⟩
  | own _ hm hesp ih => exact ⟨(ih ha).1.trans hm, hesp⟩
  | @nested top a b h e _ hroom hh hret ih ihh =>
    obtain ⟨hm, hb⟩ := ih ha
    obtain ⟨hd, -, -⟩ := entered_ok (c := b) L e (by omega)
    have hesp := hd.esp
    simp [frameWords] at hesp
    obtain ⟨hmh, -⟩ := ihh (by omega)
    obtain ⟨-, -, -, -, -, -, -, hsp, -, -, -, -, hmem⟩ := resumed_ok h
    refine ⟨(hm.trans ((entered_changes L e hroom hb).mono fun k hk => .inr hk)).trans ?_, ?_⟩
    · rw [hmem]
      refine hmh.mono fun k hk => hk.imp id fun hk => ?_
      rw [Set.mem_Ico] at hk ⊢
      omega
    · rw [hsp, hret, sub_add_cancel]
      exact hb

/-- A frame that is still there. -/
theorem resumed_of_stacked (hw : Stacked h.mem (c.regs .esp - 56) (frameWords c e))
    (hesp : h.regs .esp = c.regs .esp - 60) (hseg : ∀ s, c.seg s = c.seg .ds) :
    (resumed h).regs = c.regs ∧ (resumed h).seg = c.seg ∧ (resumed h).cs = c.cs ∧
      (resumed h).eflags = c.eflags ∧
      (resumed h).eip = c.eip ∧ (resumed h).mem = h.mem := by
  obtain ⟨hedi, hesi, hebp, hebx, hedx, hecx, heax, hsp, heip, hcs, hfl, hsegs, hmem⟩ := resumed_ok h
  have hp : h.regs .esp + 4 = c.regs .esp - 56 := by
    rw [hesp, sub_add]
    rfl
  rw [hp] at hedi hesi hebp hebx hedx hecx heax heip hcs hfl hsegs
  simp [Stacked, frameWords, add_assoc] at hw
  obtain ⟨w₀, w₁, w₂, w₃, -, w₅, w₆, w₇, w₈, -, -, w₁₁, w₁₂, w₁₃⟩ := hw
  refine ⟨funext fun q => ?_, funext fun s => ?_, ?_, ?_, ?_, hmem⟩
  · cases q
    case eax => exact heax.trans w₈
    case ecx => exact hecx.trans w₇
    case edx => exact hedx.trans w₆
    case ebx => exact hebx.trans w₅
    case esp => rw [hsp, hesp, sub_add_cancel]
    case ebp => exact hebp.trans w₃
    case esi => exact hesi.trans w₂
    case edi => exact hedi.trans w₁
  · rw [hsegs, hseg]
    simp [Register.read, w₀]
  · rw [hcs]
    simp [Register.read, w₁₂]
  · exact hfl.trans w₁₃
  · exact heip.trans w₁₁

/-- An interrupt, at whatever depth, is not seen by the code that it interrupts. -/
theorem resumed_same (hW : ∀ k ∈ W, k < lo ∨ hi ≤ k) (hroom : lo + 64 ≤ (c.regs .esp).toNat)
    (hhi : (c.regs .esp).toNat ≤ hi) (hseg : ∀ s, c.seg s = c.seg .ds)
    (hr : HandlerRun L W lo ((c.regs .esp).toNat - 56) (entered L e c) h) (hret : h.regs .esp = c.regs .esp - 60) :
    Same W lo c (resumed h) := by
  obtain ⟨hd, -, -⟩ := entered_ok (c := c) L e (by omega)
  have hesp := hd.esp
  simp [frameWords] at hesp
  obtain ⟨hm, -⟩ := hr.changes (by omega)
  have hlt := (c.regs .esp).isLt
  have e₅₆ : (c.regs .esp - 56).toNat = (c.regs .esp).toNat - 56 := by
    rw [BitVec.toNat_sub, show (56 : Word).toNat = 56 from rfl]
    omega
  have hw : Stacked h.mem (c.regs .esp - 56) (frameWords c e) := by
    have hs := hd.words.2.2
    rw [hd.esp_eq, show c.regs .esp - BitVec.ofNat 32
      (4 * (L.back :: (c.regs .esp - 56) :: frameWords c e).length) + 4 + 4
      = c.regs .esp - 56 by simp [frameWords]; bv_omega] at hs
    refine hs.keep hm ?_ fun k hk hkS => ?_
    · have := (c.regs .esp).isLt
      simp only [e₅₆, frameWords, List.length_cons, List.length_nil]
      omega
    · rw [mem_range, e₅₆] at hk
      simp [frameWords] at hk
      rcases hkS with hkW | hkS
      · have := hW k hkW
        omega
      · rw [Set.mem_Ico] at hkS
        omega
  obtain ⟨h₁, h₂, h₃, h₄, h₅, h₆⟩ := resumed_of_stacked hw hret hseg
  refine ⟨h₁, h₂, h₃, h₄, h₅, ?_⟩
  rw [h₆]
  refine ((entered_changes L e hroom le_rfl).mono fun k hk => .inr hk).trans
    (hm.mono fun k hk => hk.imp id fun hk => ?_)
  rw [Set.mem_Ico] at hk ⊢
  omega

/-- Code that uses neither `W` nor what is below its stack pointer runs as it does without the interrupts. -/
theorem interrupted_run (hW : ∀ k ∈ W, k < lo ∨ hi ≤ k)
    (hstep : ∀ c d, Same W lo c d → Same W lo (step c) (step d))
    (hr : InterruptedRun L W lo hi step c b) : ∃ n, Same W lo (step^[n] c) b := by
  induction hr with
  | refl => exact ⟨0, .refl _ _ _⟩
  | own _ ih =>
    obtain ⟨n, hn⟩ := ih
    refine ⟨n + 1, ?_⟩
    rw [Function.iterate_succ_apply']
    exact hstep _ _ hn
  | interrupt e _ hroom hhi hseg hh hret ih =>
    obtain ⟨n, hn⟩ := ih
    exact ⟨n, hn.trans (resumed_same hW hroom hhi hseg hh hret)⟩

theorem same_add (r : Reg) (hr : r ≠ .esp) (v : Word) {c d : Core} (h : Same W lo c d) :
    Same W lo ((Op.add r v).exec c) ((Op.add r v).exec d) := by
  have hregs : ((Op.add r v).exec d).regs = ((Op.add r v).exec c).regs := by
    simp [Op.exec, Core.set, Cpu.set, h.regs]
  have hesp : ((Op.add r v).exec c).regs .esp = c.regs .esp := Core.set_regs_of_ne hr.symm
  refine ⟨hregs, h.seg, h.cs, h.eflags, h.eip, ?_⟩
  rw [hesp]
  exact h.mem

/-- A handler that does nothing. -/
theorem InterruptedRun.once (e : Event) (hroom : lo + 64 ≤ (c.regs .esp).toNat) (hhi : (c.regs .esp).toNat ≤ hi)
    (hseg : ∀ s, c.seg s = c.seg .ds) :
    InterruptedRun L W lo hi step c (resumed { entered L e c with regs := fun _ => c.regs .esp - 60 }) := by
  refine .interrupt e .refl hroom hhi hseg (.own (.refl _ _) (.refl _ _) ?_) rfl
  have := (c.regs .esp).isLt
  rw [BitVec.toNat_sub, show (60 : Word).toNat = 60 from rfl]
  omega

end

def smallCore : Core := ⟨⟨fun _ => 0x100, 0, fun _ => 0⟩, fun _ => 0x10, 0x08, 0x200⟩

/-- `inc eax` is interrupted by the timer. -/
theorem interrupted_run_timer :
    let L : Labels := ⟨fun _ => 0, 0, 0⟩
    let e : Event := ⟨0x20, none, rfl⟩
    ∃ n, Same ∅ 0 ((Op.add .eax 1).exec^[n] smallCore)
      (resumed { entered L e smallCore with regs := fun _ => smallCore.regs .esp - 60 }) := by
  intro L e
  exact interrupted_run (fun k hk => absurd hk (Set.notMem_empty k)) (fun c d => same_add .eax (by decide) 1)
    (.once e (by decide) (show (smallCore.regs .esp).toNat ≤ 0x100 by decide) fun s => rfl)

end AlexOS.Interrupt
