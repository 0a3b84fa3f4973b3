import AlexOS.Interrupt.Syscall
import AlexOS.Lib.Collect
import AlexOS.Lib.Descriptor

/-!
# The way to a handler

`gdt.c`, `idt.c` and `isr.c`. The segments of `g_GDT` are flat, and the gates
that `i686_ISR_InitializeGates` sets lead to the stubs. Handlers are registered
and gates enabled and disabled in any order; an interrupt then gets to the
handler that was registered last for its vector, unless its gate is disabled
(`dispatch_run`). `i686_ISR_Initialize` leaves out the last gate.
-/

namespace AlexOS.Interrupt

open I386

/-! ## Segments -/

structure GDTEntry where
  limitLow : BitVec 16
  baseLow : BitVec 16
  baseMiddle : Byte
  access : Byte
  flagLimitHigh : Byte
  baseHigh : Byte

/-- The entry in memory. -/
def GDTEntry.bits (e : GDTEntry) : BitVec 64 :=
  e.baseHigh ++ e.flagLimitHigh ++ e.access ++ e.baseMiddle ++ e.baseLow ++ e.limitLow

/-- `GDT_ENTRY`. -/
def gdtEntry (base limit : Word) (access flags : Byte) : GDTEntry where
  limitLow := (limit &&& 0xFFFF).setWidth 16
  baseLow := (base &&& 0xFFFF).setWidth 16
  baseMiddle := ((base >>> 16) &&& 0xFF).setWidth 8
  access := access
  flagLimitHigh := ((limit >>> 16) &&& 0xF).setWidth 8 ||| (flags &&& 0xF0)
  baseHigh := ((base >>> 24) &&& 0xFF).setWidth 8

/-- `g_GDT`. -/
def gGDT : List GDTEntry :=
  [gdtEntry 0 0 0 0,
   gdtEntry 0 0xFFFFF (0x80 ||| 0x00 ||| 0x18 ||| 0x02) (0x40 ||| 0x80),
   gdtEntry 0 0xFFFFF (0x80 ||| 0x00 ||| 0x10 ||| 0x02) (0x40 ||| 0x80)]

/-! ## Gates -/

structure IDTEntry where
  baseLow : BitVec 16
  segmentSelector : BitVec 16
  reserved : Byte
  flags : Byte
  baseHigh : BitVec 16

/-- The entry in memory. -/
def IDTEntry.bits (e : IDTEntry) : BitVec 64 :=
  e.baseHigh ++ e.flags ++ e.reserved ++ e.segmentSelector ++ e.baseLow

/-- `g_IDT` and `g_ISRHandlers`, where `none` is `NULL`. -/
structure Tables (α : Type) where
  idt : Byte → IDTEntry
  handlers : Byte → Option α

/-- Before the kernel uses them. -/
def Tables.cleared (α : Type) : Tables α := ⟨fun _ => ⟨0, 0, 0, 0, 0⟩, fun _ => none⟩

def Tables.gates {α : Type} (t : Tables α) (v : Byte) : BitVec 64 := (t.idt v).bits

section

variable {α : Type}

/-- The entry of `interrupt` is replaced. -/
def Tables.set (t : Tables α) (interrupt : Byte) (e : IDTEntry) : Tables α :=
  { t with idt := Function.update t.idt interrupt e }

def idtSetGate (t : Tables α) (interrupt : Byte) (base : Addr) (segmentDescriptor : BitVec 16)
    (flags : Byte) : Tables α :=
  t.set interrupt
    { baseLow := (base &&& 0xFFFF).setWidth 16
      segmentSelector := segmentDescriptor
      flags := flags
      reserved := 0
      baseHigh := ((base >>> 16) &&& 0xFFFF).setWidth 16 }

def idtEnableGate (t : Tables α) (interrupt : Byte) : Tables α :=
  t.set interrupt { t.idt interrupt with flags := (t.idt interrupt).flags ||| 0x80 }

def idtDisableGate (t : Tables α) (interrupt : Byte) : Tables α :=
  t.set interrupt { t.idt interrupt with flags := (t.idt interrupt).flags &&& ~~~0x80 }

/-- A gate of ring 0, for 32 bits. -/
def isrInitializeGates (stub : Byte → Addr) (t : Tables α) : Tables α :=
  forBelow 256 (fun i t => idtSetGate t (BitVec.ofNat 8 i) (stub (BitVec.ofNat 8 i)) 0x08 (0x00 ||| 0x0E)) t

def isrInitialize (stub : Byte → Addr) (t : Tables α) : Tables α :=
  forBelow 255 (fun i t => idtEnableGate t (BitVec.ofNat 8 i)) (isrInitializeGates stub t)

def isrRegisterHandler (t : Tables α) (interrupt : Byte) (handler : Option α) : Tables α :=
  idtEnableGate { t with handlers := Function.update t.handlers interrupt handler } interrupt

inductive Dispatch (α : Type)
  | handled (handler : α)
  | unhandled
  | panics

/-- `i686_ISR_Handler`. -/
def isrHandler (t : Tables α) (regs : Register) : Dispatch α :=
  match t.handlers (regs.interrupt.setWidth 8) with
  | some handler => .handled handler
  | none => if regs.interrupt ≥ 32 then .unhandled else .panics

/-! ## Runs -/

inductive GateCall (α : Type)
  | register (interrupt : Byte) (handler : Option α)
  | enable (interrupt : Byte)
  | disable (interrupt : Byte)

def GateCall.exec (t : Tables α) : GateCall α → Tables α
  | .register interrupt handler => isrRegisterHandler t interrupt handler
  | .enable interrupt => idtEnableGate t interrupt
  | .disable interrupt => idtDisableGate t interrupt

end

/-- The handler that a call registers for `v`, if it does. -/
def GateCall.registers {α : Type} (v : Byte) : GateCall α → Option (Option α)
  | register interrupt handler => if interrupt = v then some handler else none
  | _ => none

/-- Whether a call opens or closes the gate of `v`, if it does. -/
def GateCall.enables {α : Type} (v : Byte) : GateCall α → Option Bool
  | register interrupt _ => if interrupt = v then some true else none
  | enable interrupt => if interrupt = v then some true else none
  | disable interrupt => if interrupt = v then some false else none

/-- The handler that was registered last. -/
def registeredAfter {α : Type} (calls : List (GateCall α)) (v : Byte) : Option α :=
  (calls.filterMap (GateCall.registers v)).getLastD none

def enabledAfter {α : Type} (calls : List (GateCall α)) (v : Byte) : Bool :=
  (calls.filterMap (GateCall.enables v)).getLastD (v ≠ 255)

/-- What `i686_ISR_Handler` should do. -/
def Dispatch.to {α : Type} (v : Byte) : Option α → Dispatch α
  | some handler => .handled handler
  | none => if 32 ≤ v.toNat then .unhandled else .panics

section

variable {α : Type} {t : Tables α} {stub : Byte → Addr} {calls : List (GateCall α)} {v w : Byte}
  {L : Labels} {e : Event} {c : Core}

/-! ## What the CPU reads -/

open BitVec

theorem offset_bits (e : IDTEntry) : Gate.offset e.bits = e.baseHigh ++ e.baseLow := by
  rw [Gate.offset, IDTEntry.bits, extractLsb'_append_eq_right, extractLsb'_append_eq_of_le (by decide),
    extractLsb'_append_eq_of_le (by decide), extractLsb'_append_eq_of_le (by decide), extractLsb'_append_eq_left]

theorem selector_bits (e : IDTEntry) : Gate.selector e.bits = e.segmentSelector := by
  rw [Gate.selector, IDTEntry.bits, extractLsb'_append_eq_of_le (by decide), extractLsb'_append_eq_right]

theorem access_bits (e : IDTEntry) : Gate.access e.bits = e.flags := by
  rw [Gate.access, IDTEntry.bits, extractLsb'_append_eq_of_le (by decide), extractLsb'_append_eq_of_le (by decide),
    extractLsb'_append_eq_of_le (by decide), extractLsb'_append_eq_right]

theorem setWidth_and_low (w : Word) : (w &&& 0xFFFF).setWidth 16 = w.setWidth 16 := by
  rw [setWidth_and]
  exact and_allOnes

theorem halves (w : Word) : ((w >>> 16) &&& 0xFFFF).setWidth 16 ++ (w &&& 0xFFFF).setWidth 16 = w := by
  have hhigh : (w >>> 16).setWidth 16 = w.extractLsb' 16 16 := by
    apply eq_of_toNat_eq
    simp
  have hlow : w.setWidth 16 = w.extractLsb' 0 16 := by
    apply eq_of_toNat_eq
    simp
  rw [setWidth_and_low, setWidth_and_low, hhigh, hlow]
  exact extractLsb'_append_extractLsb'

/-! ## The tables -/

/-- A gate that leads to `base`. -/
structure LeadsTo (e : IDTEntry) (base : Addr) (present : Bool) : Prop where
  offset : e.baseHigh ++ e.baseLow = base
  selector : e.segmentSelector = 0x08
  flags : e.flags = if present then 0x8E else 0x0E

theorem LeadsTo.enabled {e : IDTEntry} {base : Addr} {present : Bool} (h : LeadsTo e base present) :
    LeadsTo { e with flags := e.flags ||| 0x80 } base true :=
  ⟨h.offset, h.selector, by cases present <;> simp [h.flags]⟩

theorem LeadsTo.disabled {e : IDTEntry} {base : Addr} {present : Bool} (h : LeadsTo e base present) :
    LeadsTo { e with flags := e.flags &&& ~~~0x80 } base false :=
  ⟨h.offset, h.selector, by cases present <;> simp [h.flags]⟩

@[simp] theorem Tables.set_self (t : Tables α) (v : Byte) (e : IDTEntry) : (t.set v e).idt v = e :=
  Function.update_self ..

@[simp] theorem Tables.set_of_ne {e : IDTEntry} (h : w ≠ v) : (t.set v e).idt w = t.idt w :=
  Function.update_of_ne h ..

@[simp] theorem Tables.set_handlers (t : Tables α) (v : Byte) (e : IDTEntry) : (t.set v e).handlers = t.handlers := rfl

theorem eq_ofNat_iff {n : Nat} (hn : n < 256) : v = BitVec.ofNat 8 n ↔ v.toNat = n := by
  rw [← BitVec.toNat_inj, BitVec.toNat_ofNat, Nat.mod_eq_of_lt hn]

theorem initializeGates_ok (stub : Byte → Addr) (t : Tables α) :
    (∀ v, LeadsTo ((isrInitializeGates stub t).idt v) (stub v) false) ∧
      (isrInitializeGates stub t).handlers = t.handlers := by
  -- the gates below `n` are set after `n` rounds
  have h : (∀ v : Byte, v.toNat < 256 → LeadsTo ((isrInitializeGates stub t).idt v) (stub v) false) ∧
      (isrInitializeGates stub t).handlers = t.handlers := by
    refine forBelow_inv (fun n (s : Tables α) => (∀ v : Byte, v.toNat < n → LeadsTo (s.idt v) (stub v) false) ∧
      s.handlers = t.handlers) ⟨fun v hv => absurd hv (Nat.not_lt_zero _), rfl⟩ fun n hn s h => ?_
    refine ⟨fun v hv => ?_, h.2⟩
    by_cases he : v = BitVec.ofNat 8 n
    · rw [he, idtSetGate, Tables.set_self]
      exact ⟨halves _, rfl, rfl⟩
    · rw [idtSetGate, Tables.set_of_ne he]
      rw [eq_ofNat_iff hn] at he
      exact h.1 v (by omega)
  exact ⟨fun v => h.1 v v.isLt, h.2⟩

/-- The last gate is left out. -/
theorem initialize_ok (stub : Byte → Addr) (t : Tables α) :
    (∀ v, LeadsTo ((isrInitialize stub t).idt v) (stub v) (v ≠ 255)) ∧
      (isrInitialize stub t).handlers = t.handlers := by
  obtain ⟨hg, hh⟩ := initializeGates_ok stub t
  -- the gates below `n` are enabled after `n` rounds
  have h : (∀ v : Byte, LeadsTo ((isrInitialize stub t).idt v) (stub v) (v.toNat < 255)) ∧
      (isrInitialize stub t).handlers = t.handlers := by
    refine forBelow_inv (fun n (s : Tables α) => (∀ v : Byte, LeadsTo (s.idt v) (stub v) (v.toNat < n)) ∧
      s.handlers = t.handlers) ⟨fun v => hg v, hh⟩ fun n hn s h => ?_
    refine ⟨fun v => ?_, h.2⟩
    by_cases he : v = BitVec.ofNat 8 n
    · have hv : v.toNat < n + 1 := by
        rw [eq_ofNat_iff (by omega)] at he
        omega
      rw [idtEnableGate, ← he, Tables.set_self, decide_eq_true hv]
      exact (h.1 v).enabled
    · rw [idtEnableGate, Tables.set_of_ne he]
      rw [eq_ofNat_iff (by omega)] at he
      rw [show decide (v.toNat < n + 1) = decide (v.toNat < n) from decide_eq_decide.mpr (by omega)]
      exact h.1 v
  refine ⟨fun v => ?_, h.2⟩
  have hv : v.toNat < 255 ↔ v ≠ 255 := by
    have := v.isLt
    rw [Ne, show (255 : Byte) = BitVec.ofNat 8 255 from rfl, eq_ofNat_iff (by decide)]
    omega
  rw [← decide_eq_decide.mpr hv]
  exact h.1 v

/-! ## Runs of calls -/

theorem exec_gate {base : Addr} {present : Bool} (h : LeadsTo (t.idt v) base present) (call : GateCall α) :
    LeadsTo ((call.exec t).idt v) base ((call.enables v).getD present) := by
  cases call with
  | register interrupt handler =>
    by_cases he : interrupt = v
    · simp only [GateCall.enables, if_pos he, Option.getD_some]
      rw [GateCall.exec, isrRegisterHandler, idtEnableGate, he, Tables.set_self]
      exact h.enabled
    · simp only [GateCall.enables, if_neg he, Option.getD_none]
      rw [GateCall.exec, isrRegisterHandler, idtEnableGate, Tables.set_of_ne (Ne.symm he)]
      exact h
  | enable interrupt =>
    by_cases he : interrupt = v
    · simp only [GateCall.enables, if_pos he, Option.getD_some]
      rw [GateCall.exec, idtEnableGate, he, Tables.set_self]
      exact h.enabled
    · simp only [GateCall.enables, if_neg he, Option.getD_none]
      rw [GateCall.exec, idtEnableGate, Tables.set_of_ne (Ne.symm he)]
      exact h
  | disable interrupt =>
    by_cases he : interrupt = v
    · simp only [GateCall.enables, if_pos he, Option.getD_some]
      rw [GateCall.exec, idtDisableGate, he, Tables.set_self]
      exact h.disabled
    · simp only [GateCall.enables, if_neg he, Option.getD_none]
      rw [GateCall.exec, idtDisableGate, Tables.set_of_ne (Ne.symm he)]
      exact h

theorem exec_handlers (t : Tables α) (call : GateCall α) (v : Byte) :
    (call.exec t).handlers v = (call.registers v).getD (t.handlers v) := by
  cases call with
  | register interrupt handler =>
    show Function.update t.handlers interrupt handler v = _
    by_cases he : interrupt = v
    · simp [GateCall.registers, he]
    · simp [GateCall.registers, he, Function.update_of_ne (Ne.symm he)]
  | enable interrupt => rfl
  | disable interrupt => rfl

theorem getLastD_filterMap_concat {β γ : Type} (f : β → Option γ) (l : List β) (a : β) (d : γ) :
    ((l ++ [a]).filterMap f).getLastD d = (f a).getD ((l.filterMap f).getLastD d) := by
  rw [List.filterMap_append]
  cases h : f a <;> simp [h]

theorem tables_run (stub : Byte → Addr) (calls : List (GateCall α)) (v : Byte) :
    let t := calls.foldl GateCall.exec (isrInitialize stub (.cleared α))
    LeadsTo (t.idt v) (stub v) (enabledAfter calls v) ∧ t.handlers v = registeredAfter calls v := by
  intro t
  induction calls using List.reverseRecOn with
  | nil =>
    obtain ⟨hg, hh⟩ := initialize_ok stub (Tables.cleared α)
    exact ⟨hg v, congrFun hh v⟩
  | append_singleton calls call ih =>
    obtain ⟨hg, hh⟩ := ih
    rw [enabledAfter, registeredAfter, getLastD_filterMap_concat, getLastD_filterMap_concat]
    simp only [t, List.foldl_append, List.foldl_cons, List.foldl_nil]
    exact ⟨exec_gate hg call, (exec_handlers _ call v).trans (by rw [hh, registeredAfter])⟩

/-- The code segment is flat. -/
theorem flat_code : ∃ d, (gGDT.map GDTEntry.bits)[(0x08 : BitVec 16).toNat / 8]? = some d ∧
    Descriptor.IsKernelCode d ∧
    Descriptor.Flat d := ⟨_, rfl, by decide, by decide, by decide⟩

theorem LeadsTo.open_iff {present : Bool} (h : LeadsTo (t.idt v) (stub v) present) :
    Gate.Open (t.gates v) ↔ present = true := by
  rw [Gate.Open, Tables.gates, access_bits, h.flags]
  cases present <;> decide

theorem LeadsTo.deliver {present : Bool} (h : LeadsTo (t.idt v) (stub v) present) (c : Core) (error : Option Word) :
    c.deliver (gGDT.map GDTEntry.bits) t.gates v error =
      if present then some (c.interrupt 0x08 (stub v) error) else none := by
  have hs : Gate.selector (t.gates v) = 0x08 := (selector_bits _).trans h.selector
  have ho : Gate.offset (t.gates v) = stub v := (offset_bits _).trans h.offset
  obtain ⟨d, hd, hcode, hflat⟩ := flat_code
  cases present with
  | true =>
    rw [← hs] at hd
    rw [Core.deliver_of_open hd hcode hflat (h.open_iff.mpr rfl), hs, ho]
    rfl
  | false => exact Core.deliver_of_not_open fun hopen => Bool.false_ne_true (h.open_iff.mp hopen)

/-- After any calls, an interrupt goes to its stub and then to the handler that was registered last for it, unless its
gate is disabled. -/
theorem dispatch_run (L : Labels) (calls : List (GateCall α)) (e : Event) (c : Core)
    (hroom : 64 ≤ (c.regs .esp).toNat) :
    let t := calls.foldl GateCall.exec (isrInitialize L.stub (.cleared α))
    c.deliver (gGDT.map GDTEntry.bits) t.gates e.vector e.error =
        (if enabledAfter calls e.vector then some (c.interrupt 0x08 (L.stub e.vector) e.error) else none) ∧
      isrHandler t (argument (entered L e c)) = .to e.vector (registeredAfter calls e.vector) := by
  intro t
  obtain ⟨hg, hh⟩ := tables_run L.stub calls e.vector
  refine ⟨hg.deliver c e.error, ?_⟩
  obtain ⟨-, -, -, -, hi⟩ := argument_entered (c := c) L e hroom
  have hvector : (e.vector.setWidth 32).setWidth 8 = e.vector := by simp
  have hge : e.vector.setWidth 32 ≥ 32 ↔ 32 ≤ e.vector.toNat := by
    rw [ge_iff_le, BitVec.le_def, BitVec.toNat_setWidth_of_le (by decide)]
    exact Iff.rfl
  have hh' : t.handlers e.vector = registeredAfter calls e.vector := hh
  rw [isrHandler, hi, hvector, hh']
  cases registeredAfter calls e.vector with
  | some handler => rfl
  | none =>
    rw [Dispatch.to]
    exact if_congr hge rfl rfl

end

inductive KernelHandler
  | irq | pageFault | pit | syscall

/-- The handlers that the kernel registers. -/
def kernelCalls : List (GateCall KernelHandler) :=
  (List.range 16).map (fun i => .register (BitVec.ofNat 8 (0x20 + i)) (some .irq)) ++
    [.register 14 (some .pageFault), .register 0x20 (some .pit), .register 0x80 (some .syscall)]

/-- The timer does not get to `i686_IRQ_Handler`. -/
theorem dispatch_run_timer :
    let L : Labels := ⟨fun v => v.setWidth 32, 0, 0⟩
    let t := kernelCalls.foldl GateCall.exec (isrInitialize L.stub (.cleared KernelHandler))
    smallCore.deliver (gGDT.map GDTEntry.bits) t.gates 0x20 none = some (smallCore.interrupt 0x08 0x20 none) ∧
      isrHandler t (argument (entered L ⟨0x20, none, rfl⟩ smallCore)) = .handled .pit := by
  intro L t
  have h := dispatch_run L kernelCalls ⟨0x20, none, rfl⟩ smallCore (by decide)
  rwa [show enabledAfter kernelCalls 0x20 = true by decide, if_pos rfl,
    show registeredAfter kernelCalls 0x20 = some .pit from rfl] at h

end AlexOS.Interrupt
