import AlexOS.Pci.Scan
import Mathlib.Data.List.Sort

/-!
# The controllers that are started

`PCI_get_device_by_filter` of `pci.c`, and `USB_init`, which starts the UHCI
controllers among the first ten USB controllers that it gets. From the
configuration space on (`usbInit_ok`): the functions that `PCI_init` keeps are
gone through in the order of buses, slots and functions, and their class is what
it has stored of it.
-/

namespace AlexOS

namespace Pci

/-- A device is as the filter has it, in the fields of `mask`. -/
def PCIDevice.Passes (dev filter : PCIDevice) (mask : Byte) : Prop :=
  (mask &&& 1 ≠ 0 → dev.vendorId = filter.vendorId) ∧ (mask &&& 2 ≠ 0 → dev.deviceId = filter.deviceId) ∧
    (mask &&& 4 ≠ 0 → dev.classCode = filter.classCode) ∧
      (mask &&& 8 ≠ 0 → dev.subclass = filter.subclass) ∧
    (mask &&& 16 ≠ 0 → dev.progIf = filter.progIf)

instance (dev filter : PCIDevice) (mask : Byte) : Decidable (dev.Passes filter mask) :=
  inferInstanceAs (Decidable (_ ∧ _))

/-- The loop of `PCI_get_device_by_filter`, from device `i` on, for `n` devices at most. -/
def filterLoop (s : Devices) (filter : PCIDevice) (mask : Byte) (size : Nat) :
    Nat → Nat → Nat → (Nat → Nat) → Nat × (Nat → Nat)
  | 0, _, c, idOut => (c, idOut)
  | n + 1, i, c, idOut =>
    if c < size then
      if mask &&& 1 ≠ 0 ∧ (s.devices i).vendorId ≠ filter.vendorId then
        filterLoop s filter mask size n (i + 1) c idOut
      else if mask &&& 2 ≠ 0 ∧ (s.devices i).deviceId ≠ filter.deviceId then
        filterLoop s filter mask size n (i + 1) c idOut
      else if mask &&& 4 ≠ 0 ∧ (s.devices i).classCode ≠ filter.classCode then
        filterLoop s filter mask size n (i + 1) c idOut
      else if mask &&& 8 ≠ 0 ∧ (s.devices i).subclass ≠ filter.subclass then
        filterLoop s filter mask size n (i + 1) c idOut
      else if mask &&& 16 ≠ 0 ∧ (s.devices i).progIf ≠ filter.progIf then
        filterLoop s filter mask size n (i + 1) c idOut
      else filterLoop s filter mask size n (i + 1) (c + 1) (Function.update idOut c i)
    else (c, idOut)

def pciGetDeviceByFilter (s : Devices) (filter : PCIDevice) (mask : Byte) (idOut : Nat → Nat) (size : Nat) :
    Nat × (Nat → Nat) := filterLoop s filter mask size s.nbDevice 0 0 idOut

def pciGetDeviceById (s : Devices) (id : Nat) : PCIDevice := s.devices id

end Pci

namespace Usb

open Pci

/-- The devices for which `uhci_init` is called. -/
def usbInit (s : Devices) : List PCIDevice :=
  let filter := { noDevice with classCode := 0x0C, subclass := 0x03 }
  let found := pciGetDeviceByFilter s filter (4 ||| 8) (fun _ => 0) 10
  forBelow found.1 (fun i started =>
    let device := pciGetDeviceById s (found.2 i)
    if device.progIf = 0 then started ++ [device] else started) []

/-- A USB controller. -/
def IsController (x : Ids) : Prop := x.classCode = 0x0C ∧ x.subclass = 0x03

def IsUhci (x : Ids) : Prop := x.progIf = 0

instance (x : Ids) : Decidable (IsController x) := inferInstanceAs (Decidable (_ ∧ _))

instance (x : Ids) : Decidable (IsUhci x) := inferInstanceAs (Decidable (_ = _))

instance (p : Ports) (dev : PCIDevice) : Decidable (Present p dev) := inferInstanceAs (Decidable (_ ≠ _))

instance (p : Ports) (dev : PCIDevice) : Decidable (Kept p dev) := inferInstanceAs (Decidable (_ ∧ _))

/-- The first ten of the functions below `n` that are controllers, and of these the UHCI ones. -/
def firstUhci (n : Nat) (isThere : Nat → Bool) (ids : Nat → Ids) : List Nat :=
  ((((List.range n).filter isThere).filter fun m => IsController (ids m)).take 10).filter fun m => IsUhci (ids m)

end Usb

section

variable {s : Pci.Devices} {filter : Pci.PCIDevice} {mask : Byte} {size n i c m : Nat} {idOut : Nat → Nat}

/-! ## Loops over lists -/

theorem forBelow_filter {α : Type} (f : Nat → α) (P : α → Prop) [DecidablePred P] (n : Nat) :
    forBelow n (fun i l => if P (f i) then l ++ [f i] else l) [] = ((List.range n).map f).filter P := by
  refine forBelow_inv (fun n l => l = ((List.range n).map f).filter P) rfl fun i _ l hl => ?_
  rw [List.range_succ, List.map_append, List.filter_append, hl]
  by_cases hp : P (f i) <;> simp [hp]

/-- A filter of the images is one of the list. -/
theorem map_filter_of_iff {α β : Type} {f : α → β} {P : α → Bool} {Q : β → Bool} {l : List α}
    (h : ∀ x ∈ l, P x = Q (f x)) : (l.filter P).map f = (l.map f).filter Q := by
  rw [List.filter_map]
  exact congrArg _ (List.filter_congr h)

/-- The table is the list of the numbers. -/
theorem Collected.map_range {p : Nat → Prop} [DecidablePred p] {number : Nat → Nat} (h : Collected p n number c) :
    (List.range c).map number = (List.range n).filter p := by
  refine List.Pairwise.eq_of_mem_iff (r := (· < ·)) ?_ ?_ fun m => ?_
  · rw [List.pairwise_map]
    refine List.pairwise_lt_range.imp_of_mem fun {k l} _ hl hkl => ?_
    exact h.ordered k l hkl (List.mem_range.mp hl)
  · exact List.pairwise_lt_range.filter _
  · simp only [List.mem_map, List.mem_range, List.mem_filter, decide_eq_true_eq]
    constructor
    · rintro ⟨k, hk, rfl⟩
      exact h.sound k hk
    · rintro ⟨hm, hp⟩
      exact h.complete m hm hp

/-! ## The filter -/

namespace Pci

theorem filterLoop_pass (hc : c < size) (hp : (s.devices i).Passes filter mask) :
    filterLoop s filter mask size (n + 1) i c idOut =
      filterLoop s filter mask size n (i + 1) (c + 1) (Function.update idOut c i) := by
  obtain ⟨h1, h2, h3, h4, h5⟩ := hp
  rw [filterLoop, if_pos hc, if_neg fun h => h.2 (h1 h.1), if_neg fun h => h.2 (h2 h.1), if_neg fun h => h.2 (h3 h.1),
    if_neg fun h => h.2 (h4 h.1), if_neg fun h => h.2 (h5 h.1)]

theorem filterLoop_skip (hc : c < size) (hp : ¬ (s.devices i).Passes filter mask) :
    filterLoop s filter mask size (n + 1) i c idOut = filterLoop s filter mask size n (i + 1) c idOut := by
  rw [filterLoop, if_pos hc]
  split_ifs with h1 h2 h3 h4 h5
  · rfl
  · rfl
  · rfl
  · rfl
  · rfl
  · simp only [not_and, not_not] at h1 h2 h3 h4 h5
    exact absurd ⟨h1, h2, h3, h4, h5⟩ hp

/-- The devices that are left are filtered. -/
theorem filterLoop_ok :
    (List.range (filterLoop s filter mask size n i c idOut).1).map (filterLoop s filter mask size n i c idOut).2 =
      (List.range c).map idOut ++
        ((List.range' i n).filter fun k => (s.devices k).Passes filter mask).take (size - c) := by
  induction n generalizing i c idOut with
  | zero => simp [filterLoop]
  | succ n ih =>
    rw [List.range'_succ]
    by_cases hc : c < size
    · by_cases hp : (s.devices i).Passes filter mask
      · have hbefore : (List.range c).map (Function.update idOut c i) = (List.range c).map idOut :=
          List.map_congr_left fun k hk => Function.update_of_ne (List.mem_range.mp hk).ne ..
        rw [filterLoop_pass hc hp, ih, List.filter_cons_of_pos (by simpa using hp), List.range_succ, List.map_append,
          hbefore, show size - c = size - (c + 1) + 1 by omega, List.take_succ_cons]
        simp
      · rw [filterLoop_skip hc hp, ih, List.filter_cons_of_neg (by simpa using hp)]
    · rw [filterLoop, if_neg hc, Nat.sub_eq_zero_of_le (Nat.not_lt.mp hc), List.take_zero, List.append_nil]

theorem pciGetDeviceByFilter_ok :
    let r := pciGetDeviceByFilter s filter mask idOut size
    (List.range r.1).map r.2 =
    ((List.range s.nbDevice).filter fun k => (s.devices k).Passes filter mask).take size := by
  intro r
  refine (filterLoop_ok (c := 0)).trans ?_
  rw [List.range_zero, List.map_nil, List.nil_append, Nat.sub_zero, ← List.range_eq_range']

end Pci

/-! ## The controllers -/

namespace Usb

open Pci

theorem passes_iff (dev : PCIDevice) :
    dev.Passes { noDevice with classCode := 0x0C, subclass := 0x03 } (4 ||| 8) ↔ IsController dev.ids := by
  simp [PCIDevice.Passes, IsController, PCIDevice.ids]

theorem usbInit_eq (s : Devices) : usbInit s =
    ((((List.range s.nbDevice).filter fun k => IsController (s.devices k).ids).take 10).map s.devices).filter
      fun dev => IsUhci dev.ids := by
  have h := @pciGetDeviceByFilter_ok s { noDevice with classCode := 0x0C, subclass := 0x03 } (4 ||| 8) 10 fun _ => 0
  simp only [passes_iff] at h
  rw [← h, List.map_map]
  exact forBelow_filter (fun i => s.devices
    ((pciGetDeviceByFilter s { noDevice with classCode := 0x0C, subclass := 0x03 }
    (4 ||| 8) (fun _ => 0) 10).2 i)) (fun dev => dev.progIf = 0) _

variable {p : Ports} {x : Ports × Devices} {isThere isThere' : Nat → Bool} {ids ids' : Nat → Ids}

theorem firstUhci_congr (ht : ∀ m < n, isThere m = isThere' m) (hi : ∀ m < n, isThere m = true → ids m = ids' m) :
    firstUhci n isThere ids = firstUhci n isThere' ids' := by
  have hthere : (List.range n).filter isThere = (List.range n).filter isThere' :=
    List.filter_congr fun m hm => ht m (List.mem_range.mp hm)
  have hids : ∀ m ∈ (List.range n).filter isThere, ids m = ids' m := fun m hm => by
    obtain ⟨hm, hp⟩ := List.mem_filter.mp hm
    exact hi m (List.mem_range.mp hm) hp
  have hctrl : ((List.range n).filter isThere).filter (fun m => IsController (ids m)) =
      ((List.range n).filter isThere).filter fun m => IsController (ids' m) :=
    List.filter_congr fun m hm => by rw [hids m hm]
  rw [firstUhci, firstUhci, ← hthere, ← hctrl]
  refine List.filter_congr fun m hm => ?_
  rw [hids m (List.mem_of_mem_filter (List.mem_of_mem_take hm))]

/-- What is stored of a function in the list. -/
theorem ids_of_scanned (h : Scanned p n x) {k : Nat} (hk : k < x.2.nbDevice) :
    (x.2.devices k).ids = storedIds p (functionAt (number (x.2.devices k))) :=
  (h.ids k hk).trans ((functionAt_number (h.valid k hk)).storedIds rfl rfl).symm

theorem usbInit_scanned (h : Scanned p n x) : (usbInit x.2).map number =
    firstUhci n (fun m => Kept p (functionAt m)) fun m => storedIds p (functionAt m) := by
  have hlist := h.collected.map_range
  have hids : ∀ k ∈ List.range x.2.nbDevice,
    (x.2.devices k).ids = storedIds p (functionAt (number (x.2.devices k))) :=
    fun k hk => ids_of_scanned h (List.mem_range.mp hk)
  have hctrl : ((List.range x.2.nbDevice).filter fun k => IsController (x.2.devices k).ids).map
      (fun k => number (x.2.devices k)) =
        ((List.range x.2.nbDevice).map fun k => number (x.2.devices k)).filter
          fun m => IsController (storedIds p (functionAt m)) :=
    map_filter_of_iff fun k hk => by rw [hids k hk]
  rw [usbInit_eq, List.filter_map, List.map_map, firstUhci, ← hlist, ← hctrl, ← List.map_take]
  refine map_filter_of_iff fun k hk => ?_
  rw [Function.comp_apply, hids k (List.mem_of_mem_filter (List.mem_of_mem_take hk))]
  rfl

theorem mem_usbInit {dev : PCIDevice} (h : Scanned p n x) (hd : dev ∈ usbInit x.2) : dev.Valid := by
  rw [usbInit_eq] at hd
  obtain ⟨k, hk, rfl⟩ := List.mem_map.mp (List.mem_of_mem_filter hd)
  exact h.valid k (List.mem_range.mp (List.mem_of_mem_filter (List.mem_of_mem_take hk)))

/-- The controllers that are started are the first that the scan keeps, with the class that it stores; and they are the
first that there are, if no function is passed over and no class is overwritten. -/
theorem usbInit_ok (p : Ports) :
    (∀ dev ∈ usbInit (pciInit p).2, dev.Valid) ∧
    (usbInit (pciInit p).2).map number =
      firstUhci (busCount p * 256) (fun m => Kept p (functionAt m)) (fun m => storedIds p (functionAt m)) ∧
    ((∀ dev, OnScannedBus p dev → Present p dev → ¬ MultiFunction p dev ∧ ¬ MarkedLast (barReg p dev)) →
      (usbInit (pciInit p).2).map number =
        firstUhci (busCount p * 256) (fun m => Present p (functionAt m)) fun m => p.ids (functionAt m)) := by
  have h := pciInit_scanned p
  refine ⟨fun dev hd => mem_usbInit h hd, usbInit_scanned h, fun H => ?_⟩
  have hon : ∀ m < busCount p * 256, OnScannedBus p (functionAt m) := fun m hm => by
    have hlt : m < 65536 := hm.trans_le ((Nat.mul_le_mul_right 256 (busCount_le p)).trans (by decide))
    refine ⟨(number_lt_iff (functionAt_valid m)).mp ?_, functionAt_valid m⟩
    rwa [number_functionAt hlt]
  rw [usbInit_scanned h]
  refine firstUhci_congr (fun m hm => ?_) fun m hm hk => ?_
  · exact decide_eq_decide.mpr ⟨And.left, fun hp => ⟨hp, (H _ (hon m hm) hp).1⟩⟩
  · rw [storedIds, if_neg (H _ (hon m hm) (of_decide_eq_true hk).1).2]

end Usb

end

end AlexOS
