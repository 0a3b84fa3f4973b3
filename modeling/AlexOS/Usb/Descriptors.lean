import AlexOS.Dma.Buffers
import AlexOS.Lib.Bits
import AlexOS.Virtual.BootMap

/-!
# Transfer descriptors

`construct_td`, in `kernel/driver/usb/uhci.c`. It puts the descriptors of a
list of packets in memory from `dma_alloc`, the first before the others, and
links them from the last on. The controller follows the links, which are
physical addresses (`Follows`), and decodes what it finds.

A descriptor stays as it is while those after it are made, as their memory is
fresh (`constructTd_ok`). An empty packet is encoded as one of length 1, so that
the transfers are those of the list iff there is none (`constructTd_iff`).
-/

namespace AlexOS.Usb

open Physical Virtual

/-- `enum USB_PACKET_TYPE`. -/
inductive PacketType where
  | SETUP
  | IN
  | OUT
deriving DecidableEq

def PacketType.pid : PacketType → Byte
  | SETUP => 0x2D
  | IN => 0x69
  | OUT => 0xE1

/-- `usb_packet_t`, without `next`. -/
structure UsbPacket where
  type : PacketType
  data : Addr
  dataLen : Word
  status : Word

/-- `sizeof(struct UHCI_td_s)`. -/
def sizeofTd : Word := 32

def packetHeader (packet : UsbPacket) (toggle : Byte) : Word :=
  packet.type.pid.setWidth 32 ||| toggle.setWidth 32 <<< 19 |||
    (if 0 < packet.dataLen then (packet.dataLen - 1) <<< 21 else 0)

/-- `dma_alloc`, on a state of its own and the page tables. -/
abbrev DmaAlloc (σ : Type) := Word → Word → σ → Paging → Addr × σ × Paging

/-- The fields of a descriptor but the link. -/
def fillTd (packet : UsbPacket) (toggle : Byte) (td : Addr) (s : Paging) : Option Paging := do
  let s ← storeWord s (td + 4) packet.status
  let s ← storeWord s (td + 8) (packetHeader packet toggle)
  storeWord s (td + 12) (getPhysAddr s packet.data)

/-- `construct_td`, for a packet and those after it. -/
def constructTd {σ : Type} (dmaAlloc : DmaAlloc σ) (packet : UsbPacket) (rest : List UsbPacket)
    (toggle : Byte) (h : σ) (s : Paging) : Option (Addr × σ × Paging) := do
  let (td, h, s) := dmaAlloc sizeofTd 0x10 h s
  let s ← fillTd packet toggle td s
  match rest with
  | [] =>
    let s ← storeWord s (td + 0) 1
    return (td, h, s)
  | next :: rest =>
    let (tdNext, h, s) ← constructTd dmaAlloc next rest (if toggle = 0 then 1 else 0) h s
    let s ← storeWord s (td + 0) (getPhysAddr s tdNext)
    return (td, h, s)

/-! ## The controller -/

/-- The controller follows a link to descriptors at these addresses, until a link that terminates. -/
def Follows (m : Mem) : Word → List Addr → Prop
  | link, [] => link.getLsbD 0 = true
  | link, a :: as => link.getLsbD 0 = false ∧ link.getLsbD 1 = false ∧ a = link &&& ~~~0xF ∧
      Follows m (m.load32 a) as

structure Transfer where
  pid : Byte
  toggle : Bool
  length : Nat
deriving DecidableEq

/-- What a packet header says. -/
def decode (header : Word) : Transfer where
  pid := header.setWidth 8
  toggle := header.getLsbD 19
  length := if header.extractLsb' 21 11 = 0x7FF then 0 else (header.extractLsb' 21 11).toNat + 1

/-- The transfers that a list of packets stands for. -/
def transfers : List UsbPacket → Bool → List Transfer
  | [], _ => []
  | packet :: rest, toggle => ⟨packet.type.pid, toggle, packet.dataLen.toNat⟩ :: transfers rest (!toggle)

/-- The controller visits descriptors of these transfers, one after the other. -/
def Encodes (m : Mem) (link : Word) (ts : List Transfer) : Prop :=
  ∃ as, Follows m link as ∧ as.Nodup ∧ as.map (fun a => decode (m.load32 (a + 8))) = ts

/-- The call returns descriptors of the packets. -/
def Sends {σ : Type} (dmaAlloc : DmaAlloc σ) (packet : UsbPacket) (rest : List UsbPacket) (toggle : Byte) (h : σ)
    (s : Paging) : Prop :=
  ∃ td h' s', constructTd dmaAlloc packet rest toggle h s = some (td, h', s') ∧
    Encodes s'.mem (getPhysAddr s' td) (transfers (packet :: rest) (toggle ≠ 0))

/-! ## The allocator -/

/-- What `dma_alloc` keeps: its pages, the bytes that it has handed out, and how many descriptors there is room for. -/
structure Pool (σ : Type) where
  owned : σ → Set Nat
  given : σ → Set Nat
  room : σ → Nat

/-- The pages are mapped to memory that is used for nothing else. -/
structure Pool.Ready {σ : Type} (V : Pool σ) (h : σ) (s : Paging) : Prop where
  tables : Tables s
  own : Private s (V.owned h)
  inside : ∀ v : Addr, v.toNat ∈ V.given h → page v ∈ V.owned h

/-- The bytes `S` are as before, at the same place. -/
structure Keeps (S : Set Nat) (s s' : Paging) : Prop where
  entries : ∀ v : Addr, v.toNat ∈ S → entryOf s' v = entryOf s v
  bytes : ∀ v : Addr, v.toNat ∈ S → space s' v = space s v

/-- A descriptor is handed out: fresh memory, disjoint from all before, at a multiple of 16. -/
structure Pool.Served {σ : Type} (V : Pool σ) (h : σ) (s : Paging) (a : Addr) (h' : σ) (s' : Paging) : Prop where
  aligned : a.toNat % 16 = 0
  fits : a.toNat + 32 ≤ 2 ^ 32
  fresh : Disjoint (Mem.range a 32) (V.given h)
  given : V.given h ∪ Mem.range a 32 ⊆ V.given h'
  room : V.room h ≤ V.room h' + 1
  ready : V.Ready h' s'
  keeps : Keeps (V.given h) s s'

/-- `dma_alloc` returns fresh disjoint descriptors, as long as there is room. -/
def Lawful {σ : Type} (dmaAlloc : DmaAlloc σ) (V : Pool σ) : Prop :=
  ∀ h s, V.Ready h s → 0 < V.room h →
    V.Served h s (dmaAlloc sizeofTd 0x10 h s).1 (dmaAlloc sizeofTd 0x10 h s).2.1 (dmaAlloc sizeofTd 0x10 h s).2.2

/-! ## Packet headers -/

/-- The headers of the packets of a list. -/
def headers : List UsbPacket → Byte → List Word
  | [], _ => []
  | packet :: rest, toggle => packetHeader packet toggle :: headers rest (if toggle = 0 then 1 else 0)

section

variable {packet : UsbPacket} {packets : List UsbPacket} {toggle : Byte}

/-- The fields side by side. -/
theorem toNat_packetHeader (hl : packet.dataLen.toNat ≤ 1280) (ht : toggle.toNat ≤ 1) :
    (packetHeader packet toggle).toNat =
      (packet.dataLen.toNat - 1) * 2 ^ 21 + (toggle.toNat * 2 ^ 19 + packet.type.pid.toNat) := by
  have hpid := packet.type.pid.isLt
  have e : ∀ x : Byte, (x.setWidth 32).toNat = x.toNat := fun x => BitVec.toNat_setWidth_of_le (by decide)
  have htype : (toggle.setWidth 32 <<< 19 ||| packet.type.pid.setWidth 32).toNat =
      toggle.toNat * 2 ^ 19 + packet.type.pid.toNat := by
    rw [toNat_shiftLeft_or (by rw [e]; omega) (by rw [e]; omega), e, e]
  have hlen : (if 0 < packet.dataLen then (packet.dataLen - 1) <<< 21 else 0 : Word).toNat =
      (packet.dataLen.toNat - 1) * 2 ^ 21 := by
    split
    · rename_i hpos
      have hpos : 0 < packet.dataLen.toNat := hpos
      have h1 : (packet.dataLen - 1).toNat = packet.dataLen.toNat - 1 := by
        rw [BitVec.toNat_sub, show (1 : Word).toNat = 1 from rfl]
        omega
      rw [toNat_shiftLeft_of_lt (by rw [h1]; omega), h1]
    · rename_i hpos
      have hpos : ¬ 0 < packet.dataLen.toNat := hpos
      rw [show packet.dataLen.toNat - 1 = 0 by omega]
      rfl
  rw [packetHeader, BitVec.or_comm, BitVec.or_comm (packet.type.pid.setWidth 32),
    toNat_or_of_dvd (k := 21) (by rw [hlen]; exact Nat.dvd_mul_left ..) (by rw [htype]; omega), hlen, htype]

/-- An empty packet is decoded as one of length 1. -/
theorem decode_packetHeader (hl : packet.dataLen.toNat ≤ 1280) (ht : toggle = 0 ∨ toggle = 1) :
    decode (packetHeader packet toggle) = ⟨packet.type.pid, toggle ≠ 0, packet.dataLen.toNat - 1 + 1⟩ := by
  have hpid := packet.type.pid.isLt
  have ht' : toggle.toNat ≤ 1 := by rcases ht with rfl | rfl <;> decide
  have h := toNat_packetHeader hl ht'
  have hp : (packetHeader packet toggle).setWidth 8 = packet.type.pid := by
    apply BitVec.eq_of_toNat_eq
    rw [BitVec.toNat_setWidth, h]
    omega
  have htoggle : (packetHeader packet toggle).getLsbD 19 = decide (toggle ≠ 0) := by
    have hbit : (packetHeader packet toggle).toNat / 2 ^ 19 % 2 = toggle.toNat := by
      rw [h]
      omega
    rw [← BitVec.testBit_toNat, Nat.testBit_eq_decide_div_mod_eq, hbit]
    rcases ht with rfl | rfl <;> rfl
  have hlen : ((packetHeader packet toggle).extractLsb' 21 11).toNat = packet.dataLen.toNat - 1 := by
    rw [BitVec.extractLsb'_toNat, Nat.shiftRight_eq_div_pow, h]
    omega
  have hne : (packetHeader packet toggle).extractLsb' 21 11 ≠ 0x7FF := fun e => by
    rw [e, show (0x7FF : BitVec 11).toNat = 2047 from rfl] at hlen
    omega
  rw [decode, hp, htoggle, if_neg hne, hlen]

/-- The headers are decoded to the packets iff none is empty. -/
theorem decode_headers_iff (hl : ∀ q ∈ packets, q.dataLen.toNat ≤ 1280) (ht : toggle = 0 ∨ toggle = 1) :
    (headers packets toggle).map decode = transfers packets (toggle ≠ 0) ↔ ∀ q ∈ packets, q.dataLen ≠ 0 := by
  induction packets generalizing toggle with
  | nil => exact ⟨fun _ q hq => absurd hq List.not_mem_nil, fun _ => rfl⟩
  | cons packet rest ih =>
    have hnext : (decide ((if toggle = 0 then 1 else 0 : Byte) ≠ 0)) = !(decide (toggle ≠ 0)) := by
      rcases ht with rfl | rfl <;> rfl
    have ht' : (if toggle = 0 then 1 else 0 : Byte) = 0 ∨ (if toggle = 0 then 1 else 0 : Byte) = 1 := by
      rcases ht with rfl | rfl
      · exact .inr rfl
      · exact .inl rfl
    have hrest := ih (fun q hq => hl q (List.mem_cons_of_mem _ hq)) ht'
    rw [hnext] at hrest
    have hfirst : packet.dataLen.toNat - 1 + 1 = packet.dataLen.toNat ↔ packet.dataLen ≠ 0 := by
      rw [Ne, BitVec.toNat_eq, show (0 : Word).toNat = 0 from rfl]
      omega
    rw [headers, List.map_cons, transfers, decode_packetHeader (hl packet List.mem_cons_self) ht,
      List.cons.injEq, hrest,
      List.forall_mem_cons, Transfer.mk.injEq, hfirst]
    simp only [true_and]

end

/-! ## The fields of a descriptor -/

section

variable {s s' : Paging} {td : Addr} {k : Word}

theorem toNat_field (ha : td.toNat % 16 = 0) (hk : k.toNat < 16) : (td + k).toNat = td.toNat + k.toNat := by
  have := td.isLt
  rw [BitVec.toNat_add]
  omega

/-- A descriptor is in one page, as far as the controller reads it. -/
theorem page_field (ha : td.toNat % 16 = 0) (hk : k.toNat < 16) : page (td + k) = page td := by
  rw [page, page, toNat_field ha hk]
  omega

/-- A byte of a field. -/
theorem toNat_fieldByte {i : Nat} (ha : td.toNat % 16 = 0) (hk : k.toNat % 4 = 0) (hk' : k.toNat < 16) (hi : i < 4) :
    (td + k + BitVec.ofNat 32 i).toNat = td.toNat + k.toNat + i ∧ page (td + k + BitVec.ofNat 32 i) = page td := by
  have hj : (k + BitVec.ofNat 32 i).toNat = k.toNat + i := by
    rw [BitVec.toNat_add, BitVec.toNat_ofNat]
    omega
  rw [BitVec.add_assoc]
  refine ⟨?_, page_field ha (by omega)⟩
  rw [toNat_field ha (by omega), hj, Nat.add_assoc]

theorem getPhysAddr_field (hp : present s td) (ha : td.toNat % 16 = 0) (hk : k.toNat < 16) :
    getPhysAddr s (td + k) = getPhysAddr s td + k := by
  have he : entryOf s (td + k) = entryOf s td := entryOf_congr s (page_field ha hk)
  have hframe := aligned_frame (entryOf s td)
  have := (frame (entryOf s td)).isLt
  rw [Aligned] at hframe
  apply BitVec.eq_of_toNat_eq
  rw [BitVec.toNat_add, toNat_getPhysAddr hp, toNat_getPhysAddr (by rwa [present, he]), he, toNat_field ha hk]
  omega

/-- What the controller reads of a field. -/
theorem load32_getPhysAddr (hp : present s td) (ha : td.toNat % 16 = 0) (hk : k.toNat % 4 = 0) (hk' : k.toNat < 16) :
    s.mem.load32 (getPhysAddr s td + k) = (space s).load32 (td + k) := by
  have e : ∀ j : Word, j.toNat < 4 → getPhysAddr s (td + k + j) = getPhysAddr s td + k + j := fun j hj => by
    have hkj : (k + j).toNat < 16 := by
      rw [BitVec.toNat_add]
      omega
    rw [BitVec.add_assoc, getPhysAddr_field hp ha hkj, BitVec.add_assoc]
  rw [Mem.load32, Mem.load32, space, space, space, space, e 3 (by decide), e 2 (by decide), e 1 (by decide),
    getPhysAddr_field hp ha hk']

/-- A field whose bytes are as before. -/
theorem load32_field (h : ∀ u : Addr, u.toNat ∈ Mem.range td 16 → space s' u = space s u) (ha : td.toNat % 16 = 0)
    (hk : k.toNat % 4 = 0) (hk' : k.toNat < 16) : (space s').load32 (td + k) = (space s).load32 (td + k) := by
  refine Mem.load32_congr fun i hi => h _ ?_
  rw [(toNat_fieldByte ha hk hk' hi).1, Mem.mem_range]
  omega

/-! ## Stores to a descriptor -/

variable {σ : Type} {V : Pool σ} {h h₁ h' : σ} {s₁ s₂ s₃ s₄ : Paging} {packet : UsbPacket} {toggle : Byte}

/-- The descriptor at `td` is written. -/
structure Fills (V : Pool σ) (h : σ) (td : Addr) (s s' : Paging) : Prop where
  ready : V.Ready h s'
  entries : ∀ u, entryOf s' u = entryOf s u
  others : ∀ u : Addr, page u ∈ V.owned h → u.toNat ∉ Mem.range td 16 → space s' u = space s u

theorem Fills.trans (F : Fills V h td s s₁) (F' : Fills V h td s₁ s') : Fills V h td s s' :=
  ⟨F'.ready, fun u => (F'.entries u).trans (F.entries u),
    fun u hu hn => (F'.others u hu hn).trans (F.others u hu hn)⟩

/-- The field is stored, and the others are as before. -/
theorem storeWord_ok (R : V.Ready h s) (hp : page td ∈ V.owned h) (ha : td.toNat % 16 = 0) (hk : k.toNat % 4 = 0)
    (hk' : k.toNat < 16) (w : Word) : ∃ s', storeWord s (td + k) w = some s' ∧ Fills V h td s s' ∧
      (space s').load32 (td + k) = w ∧ ∀ j : Word, j.toNat % 4 = 0 → j.toNat < 16 → j ≠ k →
        (space s').load32 (td + j) = (space s).load32 (td + j) := by
  have hpages : ∀ i < 4, page (td + k + BitVec.ofNat 32 i) ∈ V.owned h := fun i hi => by
    rwa [(toNat_fieldByte ha hk hk' hi).2]
  obtain ⟨s', hs⟩ : ∃ s', storeWord s (td + k) w = some s' := R.own.storeBytes_some R.tables hpages
  have stored : ∀ bytes : List Byte, bytes.length = 4 → storeBytes s (td + k) bytes = some s' →
      Wrote (V.owned h) s s' (td + k) bytes := fun bytes hl hs =>
    R.own.storeBytes_ok R.tables (by omega) (fun i hi _ => hpages i (by omega)) hs
  have S := stored _ rfl hs
  have K : Kept s s' := S.toKept
  have hspace : ∀ u, page u ∈ V.owned h → space s' u = (space s).store32 (td + k) w u := fun u hu => by
    rw [S.space u hu, Mem.write_word]
  have hload : ∀ j : Word, j.toNat % 4 = 0 → j.toNat < 16 →
      (space s').load32 (td + j) = ((space s).store32 (td + k) w).load32 (td + j) := fun j hj hj' =>
    Mem.load32_congr fun i hi => hspace _ (by rwa [(toNat_fieldByte ha hj hj' hi).2])
  refine ⟨s', hs, ⟨⟨K.sameDir.tables R.tables, R.own.of_kept K, R.inside⟩, K.entryOf_eq,
    fun u hu hn => ?_⟩, ?_,
    fun j hj hj' hne => ?_⟩
  · rw [hspace u hu]
    refine Mem.store32_outside ?_ ?_
    · rw [toNat_field ha hk']
      have := td.isLt
      omega
    · rw [toNat_field ha hk']
      rw [Mem.mem_range] at hn
      omega
  · rw [hload k hk hk', Mem.load32_store32_self]
  · have hne' : j.toNat ≠ k.toNat := fun e => hne (BitVec.eq_of_toNat_eq e)
    rw [hload j hj hj']
    refine Mem.load32_store32_offset k j ?_ ?_
    · rw [BitVec.toNat_sub]
      omega
    · rw [BitVec.toNat_sub]
      omega

/-- The fields but the link are stored. -/
theorem fillTd_ok (packet : UsbPacket) (toggle : Byte) (R : V.Ready h s) (hp : page td ∈ V.owned h)
    (ha : td.toNat % 16 = 0) : ∃ s',
    fillTd packet toggle td s = some s' ∧ Fills V h td s s' ∧
    (space s').load32 (td + 8) = packetHeader packet toggle := by
  obtain ⟨s₁, e₁, F₁, -, -⟩ := storeWord_ok R hp ha (k := 4) rfl (by decide) packet.status
  obtain ⟨s₂, e₂, F₂, hheader, -⟩ := storeWord_ok F₁.ready hp ha
    (k := 8) rfl (by decide) (packetHeader packet toggle)
  obtain ⟨s₃, e₃, F₃, -, hkeep⟩ := storeWord_ok F₂.ready hp ha
    (k := 12) rfl (by decide) (getPhysAddr s₂ packet.data)
  refine ⟨s₃, ?_, (F₁.trans F₂).trans F₃, ?_⟩
  · rw [fillTd, e₁, Option.bind_eq_bind, Option.bind_some, e₂, Option.bind_some, e₃]
  · rw [hkeep 8 rfl (by decide) (by decide), hheader]

/-! ## The chain -/

theorem Lawful.served {dmaAlloc : DmaAlloc σ} (L : Lawful dmaAlloc V) (R : V.Ready h s) (hroom : 0 < V.room h) :
    ∃ td h₁ s₁, dmaAlloc sizeofTd 0x10 h s = (td, h₁, s₁) ∧ V.Served h s td h₁ s₁ :=
  ⟨_, _, _, rfl, L h s R hroom⟩

/-- The link to the first of some descriptors. -/
def linkOf (s : Paging) : List (Addr × Word) → Word
  | [] => 1
  | (td, _) :: _ => getPhysAddr s td

/-- A descriptor with a link and a header. -/
structure TdAt (s : Paging) (td : Addr) (link header : Word) : Prop where
  aligned : td.toNat % 16 = 0
  present : present s td
  link : (space s).load32 (td + 0) = link
  header : (space s).load32 (td + 8) = header

/-- Each descriptor has the link to the next. -/
def Linked (s : Paging) : List (Addr × Word) → Prop
  | [] => True
  | d :: ds => TdAt s d.1 (linkOf s ds) d.2 ∧ Linked s ds

/-- What a call adds to the descriptors that were handed out before. -/
structure Chain (V : Pool σ) (h : σ) (s : Paging) (h' : σ) (s' : Paging) (ds : List (Addr × Word)) : Prop where
  linked : Linked s' ds
  ready : V.Ready h' s'
  given : V.given h ⊆ V.given h'
  keeps : Keeps (V.given h) s s'
  fresh : ∀ d ∈ ds, Disjoint (Mem.range d.1 32) (V.given h)
  inside : ∀ d ∈ ds, Mem.range d.1 32 ⊆ V.given h'
  nodup : (ds.map Prod.fst).Nodup

variable {S T : Set Nat} {link header : Word} {ds : List (Addr × Word)}

theorem Keeps.mono (K : Keeps T s s') (h : S ⊆ T) : Keeps S s s' :=
  ⟨fun v hv => K.entries v (h hv), fun v hv => K.bytes v (h hv)⟩

theorem Keeps.trans (K : Keeps S s s₁) (K' : Keeps S s₁ s') : Keeps S s s' :=
  ⟨fun v hv => (K'.entries v hv).trans (K.entries v hv), fun v hv => (K'.bytes v hv).trans (K.bytes v hv)⟩

theorem range_16_subset : Mem.range td 16 ⊆ Mem.range td 32 := fun _ hx => ⟨hx.1, hx.2.trans_le (by omega)⟩

theorem mem_range_self : td.toNat ∈ Mem.range td 32 := ⟨Nat.le_refl _, by omega⟩

/-- What was handed out before is not changed. -/
theorem Fills.keeps (F : Fills V h td s s') (R : V.Ready h s) (hS : S ⊆ V.given h)
    (hd : Disjoint (Mem.range td 32) S) : Keeps S s s' where
  entries v _ := F.entries v
  bytes v hv := F.others v (R.inside v (hS hv)) fun hn => Set.disjoint_left.mp hd (range_16_subset hn) hv

theorem Keeps.field (K : Keeps S s s') (hS : Mem.range td 32 ⊆ S) (ha : td.toNat % 16 = 0) (hk : k.toNat % 4 = 0)
    (hk' : k.toNat < 16) : (space s').load32 (td + k) = (space s).load32 (td + k) :=
  load32_field (fun u hu => K.bytes u (hS (range_16_subset hu))) ha hk hk'

theorem TdAt.keep (A : TdAt s td link header) (K : Keeps S s s') (hS : Mem.range td 32 ⊆ S) :
    TdAt s' td link header where
  aligned := A.aligned
  present := by
    rw [Virtual.present, K.entries td (hS mem_range_self)]
    exact A.present
  link := (K.field hS A.aligned rfl (by decide)).trans A.link
  header := (K.field hS A.aligned rfl (by decide)).trans A.header

theorem Linked.linkOf_eq (A : Linked s ds) (K : Keeps S s s') (hS : ∀ d ∈ ds, Mem.range d.1 32 ⊆ S) :
    linkOf s' ds = linkOf s ds := by
  cases ds with
  | nil => rfl
  | cons d ds => exact getPhysAddr_congr A.1.present (K.entries d.1 (hS d List.mem_cons_self mem_range_self))

theorem Linked.keep (A : Linked s ds) (K : Keeps S s s') (hS : ∀ d ∈ ds, Mem.range d.1 32 ⊆ S) :
    Linked s' ds := by
  induction ds with
  | nil => trivial
  | cons d ds ih =>
    have hrest : ∀ d ∈ ds, Mem.range d.1 32 ⊆ S := fun d hd => hS d (List.mem_cons_of_mem _ hd)
    refine ⟨?_, ih A.2 hrest⟩
    rw [A.2.linkOf_eq K hrest]
    exact A.1.keep K (hS d List.mem_cons_self)

theorem Chain.nil (R : V.Ready h s) : Chain V h s h s [] :=
  ⟨trivial, R, subset_rfl, ⟨fun _ _ => rfl, fun _ _ => rfl⟩, fun _ h => absurd h List.not_mem_nil,
    fun _ h => absurd h List.not_mem_nil, List.nodup_nil⟩

/-- A descriptor is handed out and filled, then the chain behind it is made, and last comes its link. -/
theorem Chain.push (A : V.Served h s td h₁ s₁) (F : Fills V h₁ td s₁ s₂)
    (hheader : (space s₂).load32 (td + 8) = header) (C : Chain V h₁ s₂ h' s₃ ds)
    (F' : Fills V h' td s₃ s₄) (hlink : (space s₄).load32 (td + 0) = linkOf s₃ ds)
    (hkeep : (space s₄).load32 (td + 8) = (space s₃).load32 (td + 8)) : Chain V h s h' s₄
    ((td, header) :: ds) := by
  have hgiven : V.given h ⊆ V.given h₁ := Set.subset_union_left.trans A.given
  have htd : Mem.range td 32 ⊆ V.given h₁ := Set.subset_union_right.trans A.given
  -- the descriptors of the chain are not that one
  have hds : ∀ d ∈ ds, Mem.range d.1 32 ⊆ V.given h' \ Mem.range td 32 := fun d hd x hx =>
    ⟨C.inside d hd hx, fun hn => Set.disjoint_left.mp (C.fresh d hd) hx (htd hn)⟩
  have K' : Keeps (V.given h' \ Mem.range td 32) s₃ s₄ := F'.keeps C.ready Set.sdiff_subset Set.disjoint_sdiff_right
  have hlinkOf : linkOf s₄ ds = linkOf s₃ ds := C.linked.linkOf_eq K' hds
  have hpresent : present s₄ td := F'.ready.own.present td (F'.ready.inside td (C.given (htd mem_range_self)))
  have hbefore : V.given h ⊆ V.given h' \ Mem.range td 32 := fun x hx =>
    ⟨C.given (hgiven hx), fun hn => Set.disjoint_left.mp A.fresh hn hx⟩
  refine ⟨⟨⟨A.aligned, hpresent, ?_, ?_⟩, C.linked.keep K' hds⟩, F'.ready, hgiven.trans C.given,
    ?_, ?_, ?_, ?_⟩
  · rw [hlinkOf, hlink]
  · rw [hkeep, C.keeps.field htd A.aligned rfl (by decide), hheader]
  · have K₁ : Keeps (V.given h) s₁ s₂ := F.keeps A.ready hgiven A.fresh
    exact ((A.keeps.trans K₁).trans (C.keeps.mono hgiven)).trans (K'.mono hbefore)
  · rintro d (_ | ⟨_, hd⟩)
    · exact A.fresh
    · exact (C.fresh d hd).mono_right hgiven
  · rintro d (_ | ⟨_, hd⟩)
    · exact htd.trans C.given
    · exact C.inside d hd
  · refine List.nodup_cons.mpr ⟨fun hmem => ?_, C.nodup⟩
    obtain ⟨d, hd, e⟩ := List.mem_map.mp hmem
    have hself : td.toNat ∈ Mem.range d.1 32 := by
      rw [e]
      exact mem_range_self
    exact (hds d hd hself).2 mem_range_self

section

variable {dmaAlloc : DmaAlloc σ} {next : UsbPacket} {rest : List UsbPacket}

theorem constructTd_last (hd : dmaAlloc sizeofTd 0x10 h s = (td, h₁, s₁))
    (hf : fillTd packet toggle td s₁ = some s₂)
    (hs : storeWord s₂ (td + 0) 1 = some s₃) : constructTd dmaAlloc packet [] toggle h s = some
    (td, h₁, s₃) := by
  rw [constructTd, hd]
  simp only [hf, hs, Option.bind_eq_bind, Option.bind_some]
  rfl

theorem constructTd_next {tdNext : Addr} (hd : dmaAlloc sizeofTd 0x10 h s = (td, h₁, s₁))
    (hf : fillTd packet toggle td s₁ = some s₂)
    (hc : constructTd dmaAlloc next rest (if toggle = 0 then 1 else 0) h₁ s₂ = some (tdNext, h', s₃))
    (hs : storeWord s₃ (td + 0) (getPhysAddr s₃ tdNext) = some s₄) :
    constructTd dmaAlloc packet (next :: rest) toggle h s = some (td, h', s₄) := by
  rw [constructTd, hd]
  simp only [hf, hc, hs, Option.bind_eq_bind, Option.bind_some]
  rfl

/-- The descriptors of a list of packets. -/
theorem constructTd_ok (packet : UsbPacket) (toggle : Byte) (L : Lawful dmaAlloc V) (R : V.Ready h s)
    (hroom : rest.length < V.room h) : ∃ td h' s' ds,
    constructTd dmaAlloc packet rest toggle h s = some (td, h', s') ∧ linkOf s' ds = getPhysAddr s' td ∧
      ds.map Prod.snd = headers (packet :: rest) toggle ∧ Chain V h s h' s' ds := by
  induction rest generalizing packet toggle h s with
  | nil =>
    obtain ⟨td, h₁, s₁, hd, A⟩ := L.served R hroom
    have hp := A.ready.inside td (A.given (.inr mem_range_self))
    obtain ⟨s₂, hf, F, hheader⟩ := fillTd_ok packet toggle A.ready hp A.aligned
    obtain ⟨s₃, hs, F', hlink, hkeep⟩ := storeWord_ok F.ready hp A.aligned (k := 0) rfl (by decide) 1
    have C : Chain V h s h₁ s₃ [(td, packetHeader packet toggle)] :=
      .push A F hheader (.nil F.ready) F' hlink (hkeep 8 rfl (by decide) (by decide))
    exact ⟨td, h₁, s₃, _, constructTd_last hd hf hs, rfl, rfl, C⟩
  | cons next rest ih =>
    rw [List.length_cons] at hroom
    obtain ⟨td, h₁, s₁, hd, A⟩ := L.served R (Nat.zero_lt_of_lt hroom)
    have hp := A.ready.inside td (A.given (.inr mem_range_self))
    obtain ⟨s₂, hf, F, hheader⟩ := fillTd_ok packet toggle A.ready hp A.aligned
    obtain ⟨tdNext, h', s₃, ds, hc, hnext, hheaders, C⟩ := ih next _ F.ready (by have := A.room; omega)
    have hp' := C.ready.inside td (C.given (A.given (.inr mem_range_self)))
    obtain ⟨s₄, hs, F', hlink, hkeep⟩ := storeWord_ok C.ready hp' A.aligned
      (k := 0) rfl (by decide) (getPhysAddr s₃ tdNext)
    have C' : Chain V h s h' s₄ ((td, packetHeader packet toggle) :: ds) :=
      .push A F hheader C F' (hlink.trans hnext.symm) (hkeep 8 rfl (by decide) (by decide))
    refine ⟨td, h', s₄, _, constructTd_next hd hf hc hs, rfl, ?_, C'⟩
    rw [List.map_cons, hheaders]
    rfl

/-! ## What the controller reads -/

/-- The controller follows the links of a chain. -/
theorem Linked.follows (A : Linked s ds) : Follows s.mem (linkOf s ds) (ds.map fun d => getPhysAddr s d.1) := by
  induction ds with
  | nil => exact (show (1 : Word).getLsbD 0 = true by decide)
  | cons d ds ih =>
    obtain ⟨ha, hp, hlink, -⟩ := A.1
    have hdvd : 2 ^ 4 ∣ (getPhysAddr s d.1).toNat := by
      have := aligned_frame (entryOf s d.1)
      rw [Aligned] at this
      rw [toNat_getPhysAddr hp]
      omega
    refine ⟨getLsbD_of_dvd hdvd (by decide), getLsbD_of_dvd hdvd (by decide), (and_high_of_dvd hdvd).symm, ?_⟩
    have hload : s.mem.load32 (getPhysAddr s d.1) = linkOf s ds := by
      rw [← hlink, ← load32_getPhysAddr hp ha rfl (by decide)]
      exact congrArg s.mem.load32 (BitVec.add_zero _).symm
    rw [hload]
    exact ih A.2

/-- There is one way. -/
theorem Follows.unique {m : Mem} {as as' : List Addr} (F : Follows m link as) (F' : Follows m link as') : as = as' := by
  induction as generalizing link as' with
  | nil =>
    cases as' with
    | nil => rfl
    | cons a' as' => exact absurd (F.symm.trans F'.1) (by decide)
  | cons a as ih =>
    cases as' with
    | nil => exact absurd (F'.symm.trans F.1) (by decide)
    | cons a' as' =>
      obtain ⟨-, -, rfl, F⟩ := F
      obtain ⟨-, -, rfl, F'⟩ := F'
      rw [ih F F']

/-- What is decoded is what the headers say. -/
theorem Linked.decoded (A : Linked s ds) :
    (ds.map fun d => getPhysAddr s d.1).map (fun a => decode (s.mem.load32 (a + 8))) =
    (ds.map Prod.snd).map decode := by
  induction ds with
  | nil => rfl
  | cons d ds ih =>
    obtain ⟨ha, hp, -, hheader⟩ := A.1
    simp only [List.map_cons]
    rw [ih A.2, load32_getPhysAddr hp ha rfl (by decide), hheader]

/-- The descriptors are at different places. -/
theorem Chain.nodup_getPhysAddr (C : Chain V h s h' s' ds) : (ds.map fun d => getPhysAddr s' d.1).Nodup := by
  have hpage : ∀ td ∈ ds.map Prod.fst, page td ∈ V.owned h' := fun td htd => by
    obtain ⟨d, hd, rfl⟩ := List.mem_map.mp htd
    exact C.ready.inside d.1 (C.inside d hd mem_range_self)
  have hnodup : ((ds.map Prod.fst).map (getPhysAddr s')).Nodup := C.nodup.map_on fun td htd td' htd' e => by
    by_contra hne
    exact C.ready.own.getPhysAddr_ne (hpage td htd) (hpage td' htd') hne e
  rwa [List.map_map] at hnodup

theorem Chain.encodes_iff (C : Chain V h s h' s' ds) {ts : List Transfer} :
    Encodes s'.mem (linkOf s' ds) ts ↔ (ds.map Prod.snd).map decode = ts := by
  constructor
  · rintro ⟨as, F, -, e⟩
    rw [← C.linked.decoded, ← F.unique C.linked.follows, e]
  · exact fun e => ⟨_, C.linked.follows, C.nodup_getPhysAddr, C.linked.decoded.trans e⟩

/-- The descriptors are those of the packets iff the headers are decoded to them. -/
theorem sends_iff (L : Lawful dmaAlloc V) (R : V.Ready h s) (hroom : rest.length < V.room h) :
    Sends dmaAlloc packet rest toggle h s ↔
      (headers (packet :: rest) toggle).map decode = transfers (packet :: rest) (toggle ≠ 0) := by
  obtain ⟨td, h', s', ds, hc, hlink, hheaders, C⟩ := constructTd_ok packet toggle L R hroom
  rw [← hheaders, ← C.encodes_iff, hlink, Sends, hc]
  constructor
  · rintro ⟨_, _, _, e, E⟩
    cases e
    exact E
  · exact fun E => ⟨td, h', s', rfl, E⟩

/-- The descriptors are those of the packets iff no packet is empty. -/
theorem constructTd_iff (L : Lawful dmaAlloc V) (R : V.Ready h s) (hroom : rest.length < V.room h)
    (hl : ∀ q ∈ packet :: rest, q.dataLen.toNat ≤ 1280) (ht : toggle = 0 ∨ toggle = 1) :
    Sends dmaAlloc packet rest toggle h s ↔ ∀ q ∈ packet :: rest, q.dataLen ≠ 0 :=
  (sends_iff L R hroom).trans (decode_headers_iff hl ht)

end

/-! ## A device descriptor -/

/-- One block of 32 bytes after the other, in the page at 4 KiB. -/
def somePool : DmaAlloc Nat := fun _ _ n s =>
  if n < 128 then (BitVec.ofNat 32 (4096 + 32 * n), n + 1, s) else (0, n, s)

def somePoolState : Pool Nat where
  owned _ := {1}
  given n := Set.Ico 4096 (4096 + 32 * n)
  room n := 128 - n

theorem lawful_somePool : Lawful somePool somePoolState := by
  intro n s R hroom
  have hn : n < 128 := Nat.lt_of_sub_pos hroom
  have e : somePool sizeofTd 0x10 n s = (BitVec.ofNat 32 (4096 + 32 * n), n + 1, s) := if_pos hn
  have ha : (BitVec.ofNat 32 (4096 + 32 * n) : Addr).toNat = 4096 + 32 * n := by
    rw [BitVec.toNat_ofNat]
    omega
  rw [e]
  refine { aligned := ?_, fits := ?_, fresh := ?_, given := ?_, room := ?_, ready := ⟨R.tables, R.own, ?_⟩,
           keeps := ⟨fun _ _ => rfl, fun _ _ => rfl⟩ }
  · rw [ha]
    omega
  · rw [ha]
    omega
  · refine Set.disjoint_left.mpr fun x hx hx' => ?_
    rw [Mem.mem_range, ha] at hx
    exact absurd hx'.2 (by omega)
  · intro x hx
    change x ∈ Set.Ico 4096 (4096 + 32 * (n + 1))
    rw [Set.mem_Ico]
    rcases hx with hx | hx
    · have hx : 4096 ≤ x ∧ x < 4096 + 32 * n := hx
      omega
    · rw [Mem.mem_range, ha] at hx
      omega
  · show 128 - n ≤ 128 - (n + 1) + 1
    omega
  · intro v hv
    have hv : 4096 ≤ v.toNat ∧ v.toNat < 4096 + 32 * (n + 1) := hv
    change page v = 1
    rw [page]
    omega

/-- The page at 4 KiB is mapped. -/
def somePage : Paging := (mapPage Dma.somePaging 0x5A000 0x1000).2

theorem ready_somePage : somePoolState.Ready 0 somePage := by
  have g : Grows Dma.somePaging somePage := Dma.guarded_somePaging.mapPage_ok 0x5A000 0x1000
  have hp : present somePage 0x1000 := by decide
  have hblock : blockOf (frame (entryOf somePage 0x1000)) = 0x5A := by decide
  have hs : Spare somePage (blockOf (frame (entryOf somePage 0x1000))) := by
    rw [hblock]
    exact g.spare Dma.spare_somePaging
  exact ⟨g.layout.toTables, (Live.single hp hs).toPrivate, fun v hv => absurd hv.2 (Nat.not_lt.mpr hv.1)⟩

/-- The packets of `send_get_descriptor_cmd`. -/
def setupPacket : UsbPacket := ⟨.SETUP, 0x2000, 8, 1 <<< 23⟩
def packetIn : UsbPacket := ⟨.IN, 0x2010, 18, 1 <<< 23⟩
def packetOut : UsbPacket := ⟨.OUT, 0, 0, 1 <<< 23 ||| 1 <<< 24⟩

theorem constructTd_setup : Sends somePool setupPacket [packetIn] 0 0 somePage := by
  have hl : ∀ q ∈ [setupPacket, packetIn], q.dataLen.toNat ≤ 1280 := by decide
  refine (constructTd_iff lawful_somePool ready_somePage (by decide) hl (.inl rfl)).mpr ?_
  decide

/-- The status stage has an empty packet. -/
theorem not_sends : ¬ ∀ (σ : Type) (dmaAlloc : DmaAlloc σ) (V : Pool σ) (h : σ) (s : Paging) (packet : UsbPacket)
    (rest : List UsbPacket) (toggle : Byte), Lawful dmaAlloc V → V.Ready h s → rest.length < V.room h →
      (∀ q ∈ packet :: rest, q.dataLen.toNat ≤ 1280) → (toggle = 0 ∨ toggle = 1) →
        Sends dmaAlloc packet rest toggle h s := by
  intro H
  have hl : ∀ q ∈ [setupPacket, packetIn, packetOut], q.dataLen.toNat ≤ 1280 := by decide
  have S := H Nat somePool somePoolState 0 somePage setupPacket [packetIn, packetOut] 0 lawful_somePool ready_somePage
    (by decide) hl (.inl rfl)
  exact absurd ((sends_iff lawful_somePool ready_somePage (by decide)).mp S) (by decide)

end

end AlexOS.Usb
