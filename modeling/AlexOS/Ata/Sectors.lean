import AlexOS.Lib.Field
import AlexOS.Ata.Driver

/-!
# The sectors of a disk

Where a command of the driver goes (`startCommand_eq`, `address_eq`): the
number of the sector is that of `lba_real`, but for its upper 4 bits, which
`ata_write28` takes from `lba`. The words of the sectors then go through the
data port in order, whichever way (`readSectors_ok`, `writeSectors_ok`).
-/

namespace AlexOS.Ata

/-- The ports that `ata_init` sets. -/
structure Attached (ata : DiskAta) (base : Port) : Prop where
  basePort : ata.basePort = base
  sectorPort : ata.sectorPort = base + 2
  lbaLoPort : ata.lbaLoPort = base + 3
  lbaMidPort : ata.lbaMidPort = base + 4
  lbaHiPort : ata.lbaHiPort = base + 5
  driveSelectPort : ata.driveSelectPort = base + 6
  statusPort : ata.statusPort = base + 7
  commandPort : ata.commandPort = base + 7

/-- No error is reported, and a drive that is busy does its work in the end. -/
structure Working (d : Bus) : Prop where
  noError : ∀ k, d.status k &&& 1 = 0
  ready : ∀ k, ∃ m, k ≤ m ∧ d.status m &&& 0x80 = 0

section

variable {ata : DiskAta} {d : Bus} {master : Bool} {po top real lba : Word} {nb v command : Byte} {base : Port}

theorem attached_ataInit (h : ata.basePort = base) : Attached (ataInit ata master po) base := by
  subst h
  exact ⟨rfl, rfl, rfl, rfl, rfl, rfl, rfl, rfl⟩

namespace Attached

variable (A : Attached ata base) (h : d.base = base)

include A h

theorem outb_driveSelect : d.outb ata.driveSelectPort v = { d with select := v } := by
  rw [Bus.outb, A.driveSelectPort, h, add_sub_cancel_left]
  rfl

theorem outb_sector : d.outb ata.sectorPort v = { d with count := v } := by
  rw [Bus.outb, A.sectorPort, h, add_sub_cancel_left]
  rfl

theorem outb_lbaLo : d.outb ata.lbaLoPort v = { d with lbaLo := v } := by
  rw [Bus.outb, A.lbaLoPort, h, add_sub_cancel_left]
  rfl

theorem outb_lbaMid : d.outb ata.lbaMidPort v = { d with lbaMid := v } := by
  rw [Bus.outb, A.lbaMidPort, h, add_sub_cancel_left]
  rfl

theorem outb_lbaHi : d.outb ata.lbaHiPort v = { d with lbaHi := v } := by
  rw [Bus.outb, A.lbaHiPort, h, add_sub_cancel_left]
  rfl

theorem outb_command : d.outb ata.commandPort v = { d with
    commands := v :: d.commands
    device := d.select.getLsbD 4
    address := d.select.extractLsb' 0 4 ++ d.lbaHi ++ d.lbaMid ++ d.lbaLo
    length := 256 * if d.count = 0 then 256 else d.count.toNat
    words := 0 } := by
  rw [Bus.outb, A.commandPort, h, add_sub_cancel_left]
  rfl

theorem inb_status : d.inb ata.statusPort =
    (d.status d.statusReads, { d with statusReads := d.statusReads + 1 }) := by
  rw [Bus.inb, A.statusPort, h, add_sub_cancel_left]
  rfl

theorem delayLoop_eq (n : Nat) : delayLoop ata n d = { d with statusReads := d.statusReads + n } := by
  induction n generalizing d with
  | zero => rfl
  | succ n ih =>
    rw [delayLoop, A.inb_status h]
    refine (ih (d := { d with statusReads := d.statusReads + 1 }) h).trans ?_
    rw [Nat.add_comm n 1, ← Nat.add_assoc]

end Attached

/-- The low half of the drive select register. -/
def selectByte (master : Bool) (top : Word) : Byte :=
  let drive : Byte := if master then 0xE0 else 0xF0
  drive ||| ((top >>> 24) &&& 0x0F).setWidth 8

/-- The sector of a command. -/
def commandAddress (top lbaReal : Word) : BitVec 28 := top.extractLsb' 24 4 ++ lbaReal.extractLsb' 0 24

/-- The bus after a command. -/
def Bus.started (d : Bus) (master : Bool) (top lbaReal : Word) (nbSectors command : Byte) : Bus := { d with
  select := selectByte master top
  count := nbSectors
  lbaLo := (lbaReal &&& 0xFF).setWidth 8
  lbaMid := ((lbaReal >>> 8) &&& 0xFF).setWidth 8
  lbaHi := ((lbaReal >>> 16) &&& 0xFF).setWidth 8
  commands := command :: d.commands
  device := !master
  address := commandAddress top lbaReal
  length := 256 * if nbSectors = 0 then 256 else nbSectors.toNat
  words := 0
  statusReads := d.statusReads + 15 }

theorem device_eq (master : Bool) (top : Word) : (selectByte master top).getLsbD 4 = !master := by
  rw [selectByte, BitVec.getLsbD_or, BitVec.getLsbD_setWidth, BitVec.getLsbD_and]
  cases master <;> simp

theorem getLsbD_0F {j : Nat} (hj : j < 32) : (0x0F : Word).getLsbD j = decide (j < 4) :=
  (by decide : ∀ j < 32, (0x0F : Word).getLsbD j = decide (j < 4)) j hj

theorem getLsbD_FF {j : Nat} (hj : j < 32) : (0xFF : Word).getLsbD j = decide (j < 8) :=
  (by decide : ∀ j < 32, (0xFF : Word).getLsbD j = decide (j < 8)) j hj

theorem select_low : (selectByte master top).extractLsb' 0 4 = top.extractLsb' 24 4 := by
  apply BitVec.eq_of_getLsbD_eq
  intro j hj
  have hdrive : (if master then 0xE0 else 0xF0 : Byte).getLsbD j = false := by
    cases master
    · exact (by decide : ∀ j < 4, (0xF0 : Byte).getLsbD j = false) j hj
    · exact (by decide : ∀ j < 4, (0xE0 : Byte).getLsbD j = false) j hj
  rw [BitVec.getLsbD_extractLsb', BitVec.getLsbD_extractLsb', selectByte, Nat.zero_add, BitVec.getLsbD_or, hdrive,
    BitVec.getLsbD_setWidth, BitVec.getLsbD_and, BitVec.getLsbD_ushiftRight, getLsbD_0F (by omega),
    decide_eq_true hj, decide_eq_true (show j < 8 by omega)]
  simp

theorem and_FF (x : Word) : (x &&& 0xFF).setWidth 8 = x.extractLsb' 0 8 := by
  apply BitVec.eq_of_getLsbD_eq
  intro j hj
  rw [BitVec.getLsbD_setWidth, BitVec.getLsbD_and, getLsbD_FF (by omega), BitVec.getLsbD_extractLsb',
    Nat.zero_add, decide_eq_true hj, Bool.and_true]

theorem address_eq (master : Bool) (top real : Word) :
    (selectByte master top).extractLsb' 0 4 ++ ((real >>> 16) &&& 0xFF).setWidth 8 ++
    ((real >>> 8) &&& 0xFF).setWidth 8 ++ (real &&& 0xFF).setWidth 8 = commandAddress top real := by
  rw [select_low, and_FF, and_FF, and_FF, commandAddress]
  apply BitVec.eq_of_getLsbD_eq
  intro j hj
  simp only [BitVec.getLsbD_append, BitVec.getLsbD_extractLsb', BitVec.getLsbD_ushiftRight]
  grind

theorem startCommand_eq (A : Attached ata d.base) :
    startCommand ata d top real nb command = d.started ata.master top real nb command := by
  rw [Bus.started, ← device_eq ata.master top, ← address_eq ata.master top real]
  simp only [startCommand, ataDelay, A.outb_driveSelect, A.delayLoop_eq, A.outb_sector, A.outb_lbaLo,
    A.outb_lbaMid, A.outb_lbaHi, A.outb_command, selectByte]

/-! ## Waiting -/

theorem waitLoop_ok (A : Attached ata d.base) (hok : ∀ k, d.status k &&& 1 = 0) {gap j : Nat}
    (hready : d.status (j + gap) &&& 0x80 = 0) : ∃ n st k, st &&& 1 = 0 ∧ ∀ fuel ≥ n,
      waitLoop ata fuel (d.status j) { d with statusReads := j + 1 } = some (st, { d with statusReads := k }) := by
  induction gap generalizing j with
  | zero =>
    refine ⟨1, d.status j, j + 1, hok j, fun fuel hf => ?_⟩
    obtain ⟨fuel, rfl⟩ := Nat.exists_eq_add_of_le' hf
    rw [waitLoop, if_neg fun h => h.1 hready]
  | succ gap ih =>
    by_cases hbusy : d.status j &&& 0x80 = 0
    · refine ⟨1, d.status j, j + 1, hok j, fun fuel hf => ?_⟩
      obtain ⟨fuel, rfl⟩ := Nat.exists_eq_add_of_le' hf
      rw [waitLoop, if_neg fun h => h.1 hbusy]
    · obtain ⟨n, st, k, hst, hn⟩ := ih (j := j + 1) (by rwa [Nat.add_assoc, Nat.add_comm 1 gap])
      refine ⟨n + 1, st, k, hst, fun fuel hf => ?_⟩
      obtain ⟨fuel, rfl⟩ : ∃ m, fuel = m + 1 := ⟨fuel - 1, by omega⟩
      rw [waitLoop, if_pos ⟨hbusy, hok j⟩, A.inb_status (d := { d with statusReads := j + 1 }) rfl]
      exact hn fuel (by omega)

theorem waitStatus_ok (A : Attached ata d.base) (W : Working d) : ∃ n st k, st &&& 1 = 0 ∧ ∀ fuel ≥ n,
    waitStatus fuel ata d = some (st, { d with statusReads := k }) := by
  obtain ⟨m, hm, hready⟩ := W.ready d.statusReads
  obtain ⟨gap, rfl⟩ := Nat.exists_eq_add_of_le hm
  obtain ⟨n, st, k, hst, hn⟩ := waitLoop_ok A W.noError hready
  exact ⟨n, st, k, hst, fun fuel hf => by rw [waitStatus, A.inb_status rfl]; exact hn fuel hf⟩

/-! ## Reading -/

/-- The bytes of a command's sectors. -/
def Bus.bytes (d : Bus) : Buffer := fun x =>
  d.sectors d.device (d.address + BitVec.ofNat 28 (x / 512)) (x % 512)

theorem low_load16 (b : Buffer) (i : Nat) : ((b.load16 i) &&& 0xFF).setWidth 8 = b i := by
  apply BitVec.eq_of_getLsbD_eq
  intro j hj
  rw [BitVec.getLsbD_setWidth, BitVec.getLsbD_and, Buffer.getLsbD_load16, decide_eq_true hj, Bool.true_and,
    Buffer.bit_byte hj, (by decide : ∀ j < 8, (0xFF : BitVec 16).getLsbD j = true) j hj, Bool.and_true,
    decide_eq_true (show j < 16 by omega), Bool.true_and]

theorem high_load16 (b : Buffer) (i : Nat) : (((b.load16 i) >>> 8) &&& 0xFF).setWidth 8 = b (i + 1) := by
  apply BitVec.eq_of_getLsbD_eq
  intro j hj
  rw [BitVec.getLsbD_setWidth, BitVec.getLsbD_and, BitVec.getLsbD_ushiftRight, Buffer.getLsbD_load16,
    show 8 * i + (8 + j) = 8 * (i + 1) + j by omega, Buffer.bit_byte hj,
    (by decide : ∀ j < 8, (0xFF : BitVec 16).getLsbD j = true) j hj, decide_eq_true hj,
    decide_eq_true (show 8 + j < 16 by omega), Bool.true_and, Bool.true_and, Bool.and_true]

theorem inw_ok (hc : d.commands.head? = some 0x20) (hl : d.words < d.length) :
    d.inw d.base = (d.bytes.load16 (2 * d.words), { d with words := d.words + 1 }) := by
  have hlow : d.bytes (2 * d.words) = d.sectors d.device d.sector (2 * (d.words % 256)) := by
    rw [Bus.bytes, show 2 * d.words / 512 = d.words / 256 by omega,
      show 2 * d.words % 512 = 2 * (d.words % 256) by omega, Bus.sector]
  have hhigh : d.bytes (2 * d.words + 1) = d.sectors d.device d.sector (2 * (d.words % 256) + 1) := by
    rw [Bus.bytes, show (2 * d.words + 1) / 512 = d.words / 256 by omega,
      show (2 * d.words + 1) % 512 = 2 * (d.words % 256) + 1 by omega, Bus.sector]
  rw [Bus.inw, if_pos ⟨rfl, hc, hl⟩, Buffer.load16, Buffer.load16, hlow, hhigh]

theorem readWords_ok (A : Attached ata d.base) (hc : d.commands.head? = some 0x20) {i n w : Nat} (data : Buffer)
    (hw : w + n ≤ 256) (hp : d.words = 256 * i + w) (hl : d.words + n ≤ d.length) :
    readWords ata i n (2 * w) d data =
      (fun k => if 2 * d.words ≤ k ∧ k < 2 * (d.words + n) then d.bytes k else data k,
        { d with words := d.words + n }) := by
  induction n generalizing d data w with
  | zero =>
    rw [readWords]
    congr 1
    funext k
    rw [if_neg (by omega)]
  | succ n ih =>
    rw [readWords, A.basePort, inw_ok hc (by omega)]
    simp only [low_load16, high_load16, SECTOR_SIZE, show 512 * i + 2 * w = 2 * d.words by omega,
      show 2 * w + 1 < 512 by omega, if_pos]
    refine (ih (d := { d with words := d.words + 1 }) (w := w + 1) A hc _ (by omega) ?_ ?_).trans ?_
    · show d.words + 1 = _
      omega
    · show d.words + 1 + n ≤ d.length
      omega
    · rw [show d.words + (n + 1) = d.words + 1 + n by omega]
      congr 1
      funext k
      show (if 2 * (d.words + 1) ≤ k ∧ k < 2 * (d.words + 1 + n) then d.bytes k else _) = _
      by_cases hk : 2 * d.words ≤ k ∧ k < 2 * (d.words + 1 + n)
      swap
      · rw [if_neg hk, if_neg (by omega), Buffer.fill, if_neg (by omega), Buffer.fill, if_neg (by omega)]
      rw [if_pos hk]
      by_cases h0 : k = 2 * d.words
      · rw [if_neg (by omega), Buffer.fill, if_neg (by omega), Buffer.fill, if_pos (by omega), h0]
      · by_cases h1 : k = 2 * d.words + 1
        · rw [if_neg (by omega), Buffer.fill, if_pos (by omega), h1]
        · rw [if_pos (by omega)]

theorem readSectors_ok (A : Attached ata d.base) (W : Working d) (hc : d.commands.head? = some 0x20)
    {i n : Nat} (data : Buffer) (hp : d.words = 256 * i) (hl : 256 * (i + n) ≤ d.length) :
    ∃ m d', ∀ fuel ≥ m, readSectors fuel ata n i d data =
      some (0, fun k => if 512 * i ≤ k ∧ k < 512 * (i + n) then d.bytes k else data k, d') := by
  induction n generalizing d i data with
  | zero =>
    have e : (fun k => if 512 * i ≤ k ∧ k < 512 * (i + 0) then d.bytes k else data k) = data := by
      funext k
      rw [if_neg (by omega)]
    exact ⟨0, d, fun fuel _ => by rw [e]; rfl⟩
  | succ n ih =>
    obtain ⟨m, st, k, hst, hm⟩ := waitStatus_ok A W
    have e : readWords ata i 256 0 { d with statusReads := k } data =
        (fun x => if 2 * d.words ≤ x ∧ x < 2 * (d.words + 256) then d.bytes x else data x,
          { d with statusReads := k, words := d.words + 256 }) :=
      readWords_ok (d := { d with statusReads := k }) (w := 0) A hc data le_rfl hp
        (show d.words + 256 ≤ d.length by omega)
    obtain ⟨m', d', hm'⟩ := ih (d := { d with statusReads := k, words := d.words + 256 }) (i := i + 1) A
      ⟨W.noError, W.ready⟩ hc (fun x => if 2 * d.words ≤ x ∧ x < 2 * (d.words + 256) then d.bytes x else data x)
      (show d.words + 256 = 256 * (i + 1) by omega) (show 256 * (i + 1 + n) ≤ d.length by omega)
    have hout : (fun x => if 512 * (i + 1) ≤ x ∧ x < 512 * (i + 1 + n) then d.bytes x
        else if 2 * d.words ≤ x ∧ x < 2 * (d.words + 256) then d.bytes x else data x) =
        fun x => if 512 * i ≤ x ∧ x < 512 * (i + (n + 1)) then d.bytes x else data x := by
      funext x
      by_cases hx : 512 * i ≤ x ∧ x < 512 * (i + (n + 1))
      · rw [if_pos hx]
        by_cases h1 : 512 * (i + 1) ≤ x ∧ x < 512 * (i + 1 + n)
        · rw [if_pos h1]
        · rw [if_neg h1, if_pos (by omega)]
      · rw [if_neg hx, if_neg (by omega), if_neg (by omega)]
    refine ⟨max m m', d', fun fuel hf => ?_⟩
    rw [readSectors, hm fuel (le_of_max_le_left hf)]
    simp only [Option.bind_eq_bind, Option.bind_some, hst, ne_eq, not_true_eq_false, if_false]
    rw [show SECTOR_SIZE / 2 = 256 from rfl, e, ← hout]
    exact hm' fuel (le_of_max_le_right hf)

/-! ## Writing -/

/-- The bus when the first `p` words of some data were written. -/
def Bus.filled (d : Bus) (data : Buffer) (p : Nat) : Bus := { d with
  words := p
  sectors := fun device l k =>
    if device = d.device ∧ k < 512 ∧ 512 * (l - d.address).toNat + k < 2 * p then
      data (512 * (l - d.address).toNat + k)
    else d.sectors device l k }

theorem filled_zero (data : Buffer) (h : d.words = 0) : d.filled data 0 = d := by
  have e : (d.filled data 0).sectors = d.sectors := by
    funext device l k
    exact if_neg (by omega)
  calc d.filled data 0 = { d with words := 0, sectors := (d.filled data 0).sectors } := rfl
    _ = d := by rw [e, ← h]

/-- The word of two bytes of the data. -/
def wordOf (data : Buffer) (p : Nat) : BitVec 16 :=
  (data (2 * p + 1)).setWidth 16 <<< 8 ||| (data (2 * p)).setWidth 16

theorem wordOf_byte (data : Buffer) (p : Nat) {j : Nat} (hj : j < 2) :
    (wordOf data p).extractLsb' (8 * j) 8 = data (2 * p + j) := by
  apply BitVec.eq_of_getLsbD_eq
  intro b hb
  rw [BitVec.getLsbD_extractLsb', wordOf, BitVec.getLsbD_or, BitVec.getLsbD_shiftLeft, BitVec.getLsbD_setWidth,
    BitVec.getLsbD_setWidth]
  obtain rfl | rfl : j = 0 ∨ j = 1 := by omega
  · simp [hb, show b < 16 by omega]
  · rw [BitVec.getLsbD_of_ge (data (2 * p)) _ (by omega)]
    simp [hb, show 8 + b < 16 by omega, show b < 16 by omega]

theorem outw_ok {data : Buffer} {p : Nat} (hc : d.commands.head? = some 0x30) (hl : p < d.length)
    (hp : p < 256 * 2 ^ 28) : (d.filled data p).outw d.base (wordOf data p) = d.filled data (p + 1) := by
  have hsector : ∀ l, l = (d.filled data p).sector ↔ (l - d.address).toNat = p / 256 := by
    intro l
    show l = d.address + BitVec.ofNat 28 (p / 256) ↔ _
    rw [add_comm, ← sub_eq_iff_eq_add, BitVec.toNat_eq, BitVec.toNat_ofNat, Nat.mod_eq_of_lt (by omega)]
  rw [Bus.outw, if_pos ⟨rfl, hc, hl⟩]
  refine congrArg (fun f => ({ d with words := p + 1, sectors := f } : Bus))
    (funext fun device => funext fun l => funext fun k => ?_)
  show (if device = d.device ∧ l = (d.filled data p).sector then
    ((d.filled data p).sectors device l).store16 (2 * (p % 256)) (wordOf data p) else
      (d.filled data p).sectors device l) k =
      if device = d.device ∧ k < 512 ∧ 512 * (l - d.address).toNat + k < 2 * (p + 1) then _ else _
  by_cases hdev : device = d.device
  swap
  · rw [if_neg (fun h => hdev h.1), if_neg (fun h => hdev h.1)]
    exact if_neg (fun h => hdev h.1)
  have hold : (d.filled data p).sectors device l k =
      if k < 512 ∧ 512 * (l - d.address).toNat + k < 2 * p then data (512 * (l - d.address).toNat + k)
      else d.sectors device l k := by
    simp only [Bus.filled, hdev, true_and]
  simp only [hdev, true_and, hsector] at hold ⊢
  by_cases hl' : (l - d.address).toNat = p / 256
  · rw [if_pos hl', Buffer.store16]
    by_cases hk : 2 * (p % 256) ≤ k ∧ k < 2 * (p % 256) + 2
    · rw [if_pos hk, if_pos ⟨by omega, by omega⟩, wordOf_byte data p (by omega)]
      congr 1
      omega
    · rw [if_neg hk, hold]
      by_cases hk' : k < 512 ∧ 512 * (l - d.address).toNat + k < 2 * p
      · rw [if_pos hk', if_pos ⟨hk'.1, by omega⟩]
      · rw [if_neg hk', if_neg (by omega)]
  · rw [if_neg hl', hold]
    by_cases hk' : k < 512 ∧ 512 * (l - d.address).toNat + k < 2 * p
    · rw [if_pos hk', if_pos ⟨hk'.1, by omega⟩]
    · rw [if_neg hk', if_neg (by omega)]

theorem writeWords_ok (A : Attached ata d.base) (hc : d.commands.head? = some 0x30) {i n w : Nat} (data : Buffer)
    (hi : i < 511) (hw : w + n ≤ 256) (hl : 256 * i + w + n ≤ d.length) :
    writeWords ata data i n (2 * w) (d.filled data (256 * i + w)) = d.filled data (256 * i + w + n) := by
  induction n generalizing w with
  | zero => rfl
  | succ n ih =>
    have e : (data (i * SECTOR_SIZE + 2 * w + 1)).setWidth 16 <<< 8 ||| (data (i * SECTOR_SIZE + 2 * w)).setWidth 16 =
        wordOf data (256 * i + w) := by
      rw [wordOf, SECTOR_SIZE, show i * 512 + 2 * w = 2 * (256 * i + w) by omega]
    rw [writeWords]
    simp only [if_pos (show i + 1 < SECTOR_SIZE by rw [SECTOR_SIZE]; omega), e, A.basePort]
    rw [outw_ok hc (by omega) (by omega)]
    apply (ih (w := w + 1) (by omega) (by omega)).trans
    rw [show 256 * i + (w + 1) + n = 256 * i + w + (n + 1) by omega]

theorem writeSectors_ok (A : Attached ata d.base) (hc : d.commands.head? = some 0x30) {i n : Nat} (data : Buffer)
    (hi : i + n < 512) (hl : 256 * (i + n) ≤ d.length) :
    writeSectors ata data n i (d.filled data (256 * i)) = d.filled data (256 * (i + n)) := by
  induction n generalizing i with
  | zero => rfl
  | succ n ih =>
    have e : writeWords ata data i (SECTOR_SIZE / 2) 0 (d.filled data (256 * i)) = d.filled data (256 * (i + 1)) :=
      writeWords_ok (w := 0) (n := 256) A hc data (by omega) (by omega) (by omega)
    rw [writeSectors, e, ih (by omega) (by omega), show i + 1 + n = i + (n + 1) by omega]

theorem ataFlush_ok (A : Attached ata d.base) (W : Working d) :
    ∃ n d', (∀ fuel ≥ n, ataFlush fuel ata d = some d') ∧
    d'.base = d.base ∧ d'.sectors = d.sectors ∧ d'.status = d.status := by
  simp only [ataFlush, ataDelay, A.outb_driveSelect, A.delayLoop_eq, A.outb_command]
  generalize hd : Bus.mk .. = d'
  have hbase : d'.base = d.base := by rw [← hd]
  have hsectors : d'.sectors = d.sectors := by rw [← hd]
  have hstatus : d'.status = d.status := by rw [← hd]
  obtain ⟨n, st, k, -, hn⟩ := waitStatus_ok (d := d') (hbase ▸ A) ⟨hstatus ▸ W.noError, hstatus ▸ W.ready⟩
  exact ⟨n, { d' with statusReads := k }, fun fuel hf => by rw [hn fuel hf]; rfl, hbase, hsectors, hstatus⟩

/-! ## The commands -/

theorem getLsbD_high {j : Nat} (hj : j < 32) : (0xF0000000 : Word).getLsbD j = decide (28 ≤ j) :=
  (by decide : ∀ j < 32, (0xF0000000 : Word).getLsbD j = decide (28 ≤ j)) j hj

theorem high_ne_zero_iff : lba &&& 0xF0000000 ≠ 0 ↔ 2 ^ 28 ≤ lba.toNat := by
  rw [← not_lt, not_iff_not]
  constructor
  · intro h
    have e : lba &&& BitVec.ofNat 32 (2 ^ 28 - 1) = lba := by
      apply BitVec.eq_of_getLsbD_eq
      intro j hj
      have hz : (lba &&& 0xF0000000).getLsbD j = false := h ▸ BitVec.getLsbD_zero
      rw [BitVec.getLsbD_and, getLsbD_high hj] at hz
      rw [BitVec.getLsbD_and, BitVec.getLsbD_ofNat, Nat.testBit_two_pow_sub_one, decide_eq_true hj, Bool.true_and]
      by_cases h28 : j < 28
      · rw [decide_eq_true h28, Bool.and_true]
      · rw [decide_eq_true (show 28 ≤ j by omega), Bool.and_true] at hz
        rw [hz, Bool.false_and]
    rw [← e, BitVec.toNat_and, BitVec.toNat_ofNat, Nat.mod_eq_of_lt (by decide),
      Nat.and_two_pow_sub_one_eq_mod]
    exact Nat.mod_lt _ (by decide)
  · intro h
    apply BitVec.eq_of_getLsbD_eq
    intro j hj
    rw [BitVec.getLsbD_and, getLsbD_high hj, show (0 : Word).getLsbD j = false from BitVec.getLsbD_zero]
    by_cases h28 : 28 ≤ j
    · have hbit : lba.getLsbD j = false :=
        Nat.testBit_lt_two_pow (h.trans_le (Nat.pow_le_pow_right (by decide) h28))
      rw [hbit, Bool.false_and]
    · rw [decide_eq_false h28, Bool.and_false]

theorem Working.started (W : Working d) : Working (d.started master top real nb command) := ⟨W.noError, W.ready⟩

theorem length_started (h : 0 < nb.toNat) : (d.started master top real nb command).length = 256 * nb.toNat := by
  have hne : nb ≠ 0 := fun e => by rw [e] at h; exact absurd h (by decide)
  show 256 * (if nb = 0 then 256 else nb.toNat) = _
  rw [if_neg hne]

/-- The sectors after a write. -/
def stored (d : Bus) (device : Bool) (first : BitVec 28) (n : Nat) (data : Buffer) : Sectors := fun dev l k =>
  if dev = device ∧ k < 512 ∧ (l - first).toNat < n then data (512 * (l - first).toNat + k)
  else d.sectors dev l k

theorem ataWrite28_ok (A : Attached ata d.base) (W : Working d) (hlba : lba.toNat < 2 ^ 28) (hnb : 0 < nb.toNat)
    (data : Buffer) : ∃ n d', (∀ fuel ≥ n, ataWrite28 fuel ata d lba nb data = some (0, d')) ∧
      d'.base = d.base ∧ d'.status = d.status ∧
      d'.sectors = stored d (!ata.master) (commandAddress lba (ata.partitionOffset + lba)) nb.toNat data := by
  generalize hd₁ : d.started ata.master lba (ata.partitionOffset + lba) nb 0x30 = d₁
  have A₁ : Attached ata d₁.base := by rwa [← hd₁]
  have hl : d₁.length = 256 * nb.toNat := by rw [← hd₁, length_started hnb]
  have hfilled : d₁.filled data 0 = d₁ := filled_zero data (by rw [← hd₁]; rfl)
  have hwrite : writeSectors ata data nb.toNat 0 d₁ = d₁.filled data (256 * nb.toNat) := by
    have e := writeSectors_ok (i := 0) (n := nb.toNat) A₁ (by rw [← hd₁]; rfl) data
      (by have := nb.isLt; omega) (by rw [hl, Nat.zero_add])
    rwa [Nat.mul_zero, hfilled, Nat.zero_add] at e
  have W₂ : Working (d₁.filled data (256 * nb.toNat)) := by rw [← hd₁]; exact ⟨W.noError, W.ready⟩
  obtain ⟨n, d', hn, hbase, hsectors, hstatus⟩ := ataFlush_ok (d := d₁.filled data (256 * nb.toNat)) A₁ W₂
  refine ⟨n, d', fun fuel hf => ?_, ?_, ?_, ?_⟩
  · rw [ataWrite28, if_neg (by rw [high_ne_zero_iff]; omega)]
    simp only [startCommand_eq A, hd₁, hwrite, hn fuel hf, Option.map_some]
  · rw [hbase, ← hd₁]
    rfl
  · rw [hstatus, ← hd₁]
    rfl
  · rw [hsectors, ← hd₁]
    funext dev l k
    show (if dev = (!ata.master) ∧ k < 512 ∧
      512 * (l - commandAddress lba (ata.partitionOffset + lba)).toNat + k < 2 * (256 * nb.toNat) then
        data (512 * (l - commandAddress lba (ata.partitionOffset + lba)).toNat + k) else d.sectors dev l k) = _
    rw [stored]
    generalize (l - commandAddress lba (ata.partitionOffset + lba)).toNat = n
    by_cases h : dev = (!ata.master) ∧ k < 512 ∧ n < nb.toNat
    · rw [if_pos h, if_pos ⟨h.1, h.2.1, by have := h.2; omega⟩]
    · rw [if_neg h, if_neg fun h' => h ⟨h'.1, h'.2.1, by have := h'.2; omega⟩]

theorem ataRead28_ok (A : Attached ata d.base) (W : Working d) (hlba : lba.toNat < 2 ^ 28) (hnb : 0 < nb.toNat)
    (out : Buffer) : ∃ n out' d', (∀ fuel ≥ n, ataRead28 fuel ata d lba nb out = some (0, out', d')) ∧
      ∀ k < 512 * nb.toNat, out' k = d.sectors (!ata.master) (commandAddress (ata.partitionOffset + lba)
        (ata.partitionOffset + lba) + BitVec.ofNat 28 (k / 512)) (k % 512) := by
  generalize hreal : ata.partitionOffset + lba = real
  obtain ⟨n, d', hn⟩ := readSectors_ok (d := d.started ata.master real real nb 0x20) (i := 0) (n := nb.toNat) A
    W.started rfl out rfl (by rw [length_started hnb, Nat.zero_add])
  refine ⟨n, fun k => if 512 * 0 ≤ k ∧ k < 512 * (0 + nb.toNat) then
    (d.started ata.master real real nb 0x20).bytes k else out k, d', fun fuel hf => ?_, fun k hk => ?_⟩
  · rw [ataRead28, if_neg (by rw [high_ne_zero_iff]; omega)]
    simp only [startCommand_eq A, hreal]
    exact hn fuel hf
  · simp only [show 512 * 0 ≤ k ∧ k < 512 * (0 + nb.toNat) by omega]
    rfl

/-! ## The same sectors -/

/-- The sectors from `first` on hold the data, and all others what they held. -/
def WrittenAt (d d' : Bus) (device : Bool) (first n : Nat) (data : Buffer) : Prop :=
  ∀ dev l, ∀ k < 512, d'.sectors dev l k =
    if dev = device ∧ first ≤ l.toNat ∧ l.toNat < first + n then data (512 * (l.toNat - first) + k)
    else d.sectors dev l k

/-- A write to sectors of the drive stores the data there and nowhere else, and a read after it returns
them. A write or a read past the last sector fails, without a command. -/
def SameSectors (po lba : Word) (nb : Byte) : Prop :=
  ∀ (ata₀ : DiskAta) (master : Bool) (d : Bus) (data : Buffer), ata₀.basePort = d.base → Working d →
    let ata := ataInit ata₀ master po
    (po.toNat + lba.toNat + nb.toNat ≤ 2 ^ 28 →
      ∃ n d', (∀ fuel ≥ n, ataWrite28 fuel ata d lba nb data = some (0, d')) ∧
        WrittenAt d d' (!master) (po.toNat + lba.toNat) nb.toNat data ∧
        ∀ out, ∃ n out' d'', (∀ fuel ≥ n, ataRead28 fuel ata d' lba nb out = some (0, out', d'')) ∧
          ∀ k < 512 * nb.toNat, out' k = data k) ∧
    (2 ^ 28 ≤ po.toNat + lba.toNat → ∃ n,
      (∀ fuel ≥ n, ∃ r d', ataWrite28 fuel ata d lba nb data = some (r, d') ∧ r ≠ 0 ∧
      d'.commands = d.commands) ∧
      ∀ fuel ≥ n, ∃ r out' d', ataRead28 fuel ata d lba nb data = some (r, out', d') ∧ r ≠ 0 ∧
        d'.commands = d.commands)

/-- The upper bits of the sector number are those of `lba`, the others those of `lba_real`. -/
theorem toNat_commandAddress (top real : Word) :
    (commandAddress top real).toNat = top.toNat / 2 ^ 24 % 2 ^ 4 * 2 ^ 24 + real.toNat % 2 ^ 24 := by
  have h : real.toNat % 2 ^ 24 < 2 ^ 24 := Nat.mod_lt _ (by decide)
  rw [commandAddress, BitVec.toNat_append, BitVec.extractLsb'_toNat, BitVec.extractLsb'_toNat, Nat.shiftRight_zero,
    Nat.shiftRight_eq_div_pow, ← Nat.shiftLeft_add_eq_or_of_lt h, Nat.shiftLeft_eq]

theorem toNat_real (h : po.toNat + lba.toNat < 2 ^ 28) : (po + lba).toNat = po.toNat + lba.toNat := by
  rw [BitVec.toNat_add, Nat.mod_eq_of_lt (by omega)]

theorem stored_at {first : BitVec 28} {n : Nat} (hn : first.toNat + n ≤ 2 ^ 28) {device dev : Bool} {l : BitVec 28}
    {data : Buffer} {k : Nat} (hk : k < 512) : stored d device first n data dev l k =
      if dev = device ∧ first.toNat ≤ l.toNat ∧ l.toNat < first.toNat + n then
        data (512 * (l.toNat - first.toNat) + k)
      else d.sectors dev l k := by
  have hl := l.isLt
  have hf := first.isLt
  have hsub : (l - first).toNat = (2 ^ 28 - first.toNat + l.toNat) % 2 ^ 28 := BitVec.toNat_sub _ _
  rw [stored]
  by_cases h : dev = device ∧ first.toNat ≤ l.toNat ∧ l.toNat < first.toNat + n
  · rw [if_pos h, if_pos ⟨h.1, hk, by omega⟩, show (l - first).toNat = l.toNat - first.toNat by omega]
  · rw [if_neg h, if_neg fun h' => h ⟨h'.1, by omega, by omega⟩]

theorem same_sectors_of (hnb : 0 < nb.toNat)
    (h : po.toNat + lba.toNat + nb.toNat ≤ 2 ^ 28 → lba.toNat / 2 ^ 24 = (po.toNat + lba.toNat) / 2 ^ 24)
    (h' : 2 ^ 28 ≤ po.toNat + lba.toNat → 2 ^ 28 ≤ lba.toNat) : SameSectors po lba nb := by
  intro ata₀ master d data hbase W ata
  have A : Attached ata d.base := attached_ataInit hbase
  refine ⟨fun hin => ?_, fun hout => ⟨0, fun fuel _ => ?_, fun fuel _ => ?_⟩⟩
  · have hlba : lba.toNat < 2 ^ 28 := by omega
    have hreal : (po + lba).toNat = po.toNat + lba.toNat := toNat_real (by omega)
    have hwrite : (commandAddress lba (po + lba)).toNat = po.toNat + lba.toNat := by
      rw [toNat_commandAddress, hreal, h hin]
      omega
    have hread : (commandAddress (po + lba) (po + lba)).toNat = po.toNat + lba.toNat := by
      rw [toNat_commandAddress, hreal]
      omega
    obtain ⟨n, d', hn, hbase', hstatus, hsectors⟩ := ataWrite28_ok A W hlba hnb data
    have D : WrittenAt d d' (!master) (po.toNat + lba.toNat) nb.toNat data := fun dev l k hk => by
      rw [hsectors]
      apply (stored_at (by rw [show ata.partitionOffset = po from rfl, hwrite]; exact hin) hk).trans
      rw [show ata.partitionOffset = po from rfl, hwrite]
      rfl
    refine ⟨n, d', hn, D, fun out => ?_⟩
    obtain ⟨m, out', d'', hm, hout⟩ :=
      ataRead28_ok (d := d') (hbase' ▸ A) ⟨hstatus ▸ W.noError, hstatus ▸ W.ready⟩ hlba hnb out
    refine ⟨m, out', d'', hm, fun k hk => ?_⟩
    have hl : (commandAddress (po + lba) (po + lba) + BitVec.ofNat 28 (k / 512)).toNat =
        po.toNat + lba.toNat + k / 512 := by
      rw [BitVec.toNat_add, hread, BitVec.toNat_ofNat]
      omega
    refine (hout k hk).trans ((D _ _ _ (Nat.mod_lt _ (by decide))).trans ?_)
    rw [show ata.partitionOffset = po from rfl, hl, if_pos ⟨rfl, by omega, by omega⟩]
    congr 1
    omega
  · exact ⟨-1, d, by rw [ataWrite28, if_pos (high_ne_zero_iff.mpr (h' hout))], by decide, rfl⟩
  · exact ⟨-1, data, d, by rw [ataRead28, if_pos (high_ne_zero_iff.mpr (h' hout))], by decide, rfl⟩

/-- Empty drives that are never busy. -/
def idleBus : Bus where
  base := 0x1F0
  select := 0
  count := 0
  lbaLo := 0
  lbaMid := 0
  lbaHi := 0
  sectors _ _ _ := 0
  commands := []
  device := false
  address := 0
  length := 0
  words := 0
  status _ := 0x50
  statusReads := 0

theorem working_idleBus : Working idleBus :=
  ⟨fun _ => show (0x50 : Byte) &&& 1 = 0 by decide,
    fun k => ⟨k, le_refl k, show (0x50 : Byte) &&& 0x80 = 0 by decide⟩⟩

def someAta : DiskAta := ⟨true, 0x1F0, 0, 0, 0, 0, 0, 0, 0, 0, 0, 0⟩

theorem SameSectors.upper (S : SameSectors po lba nb) (hnb : 0 < nb.toNat)
    (hin : po.toNat + lba.toNat + nb.toNat ≤ 2 ^ 28) : lba.toNat / 2 ^ 24 = (po.toNat + lba.toNat) / 2 ^ 24 := by
  have A : Attached (ataInit someAta true po) idleBus.base := attached_ataInit rfl
  have hlba : lba.toNat < 2 ^ 28 := by omega
  obtain ⟨n, d', hn, D, -⟩ := (S someAta true idleBus (fun _ => 1) rfl working_idleBus).1 hin
  obtain ⟨n', d₂, hn', -, -, hsectors⟩ := ataWrite28_ok A working_idleBus hlba hnb fun _ => 1
  have e := (hn (max n n') (le_max_left _ _)).symm.trans (hn' (max n n') (le_max_right _ _))
  cases e
  have hl : (BitVec.ofNat 28 (po.toNat + lba.toNat)).toNat = po.toNat + lba.toNat := by
    rw [BitVec.toNat_ofNat, Nat.mod_eq_of_lt (by omega)]
  have h1 := D false (BitVec.ofNat 28 (po.toNat + lba.toNat)) 0 (by decide)
  rw [hl, if_pos ⟨rfl, by omega, by omega⟩, hsectors, stored] at h1
  by_contra hne
  apply absurd h1
  rw [if_neg]
  · exact (by decide : (0 : Byte) ≠ 1)
  · -- The upper bits differ, so the sector is at least 2 ^ 24 sectors away.
    rintro ⟨-, -, hlt⟩
    have hfirst := toNat_commandAddress lba (po + lba)
    rw [toNat_real (by omega)] at hfirst
    rw [show (ataInit someAta true po).partitionOffset = po from rfl, BitVec.toNat_sub, hl, hfirst] at hlt
    have := nb.isLt
    omega

theorem SameSectors.past (S : SameSectors po lba nb) (hnb : 0 < nb.toNat) (hout : 2 ^ 28 ≤ po.toNat + lba.toNat) :
    2 ^ 28 ≤ lba.toNat := by
  by_contra hlba
  have A : Attached (ataInit someAta true po) idleBus.base := attached_ataInit rfl
  obtain ⟨n, hn, -⟩ := (S someAta true idleBus (fun _ => 1) rfl working_idleBus).2 hout
  obtain ⟨n', d₂, hn', -⟩ := ataWrite28_ok A working_idleBus (not_le.mp hlba) hnb fun _ => 1
  obtain ⟨r, d', e, hr, -⟩ := hn (max n n') (le_max_left _ _)
  rw [hn' (max n n') (le_max_right _ _)] at e
  cases e
  exact hr rfl

/-- The upper four bits of the sector have to be those of `lba`, and what is past the end by
`lba_real` has to be so by `lba`. -/
theorem same_sectors_iff (hnb : 0 < nb.toNat) : SameSectors po lba nb ↔
    (po.toNat + lba.toNat + nb.toNat ≤ 2 ^ 28 → lba.toNat / 2 ^ 24 = (po.toNat + lba.toNat) / 2 ^ 24) ∧
      (2 ^ 28 ≤ po.toNat + lba.toNat → 2 ^ 28 ≤ lba.toNat) :=
  ⟨fun S => ⟨S.upper hnb, S.past hnb⟩, fun h => same_sectors_of hnb h.1 h.2⟩

theorem same_sectors_small : SameSectors 2048 100 8 :=
  (same_sectors_iff (by decide)).mpr ⟨fun _ => by decide, fun h => absurd h (by decide)⟩

/-- The first sector past 8 GiB of a disk, of a partition that starts below. -/
theorem not_same_sectors : ¬ ∀ (po lba : Word) (nb : Byte), 0 < nb.toNat → SameSectors po lba nb := fun h =>
  absurd ((h 2048 0xFFFFFF 1 (by decide)).upper (by decide) (by decide)) (by decide)

end

end AlexOS.Ata
