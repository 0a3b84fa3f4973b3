import AlexOS.Heap.Allocator
import AlexOS.Vfs.Std

/-!
# Reading a line

`read_line` of `vfs.c`, for a standard stream: characters are taken from the
stream, while others arrive there, and stored in a buffer of 100 bytes, which
is to grow by 100 when they do not fit. But `realloc` returns a block that is
too small as it is, and nothing is stored behind the newline: a line is read as
it should be if the newline is not the last of the 100 bytes that `calloc` has
cleared, or behind them (`readsLine_iff`).
-/

namespace AlexOS.Vfs

open Mem Block
open Malloc (Heap PageSource Live heapAllocator Owns actualSize sizeofBlkHeader)

def newline : Byte := 0x0A

/-- The heap, and its memory. -/
def heapOf (s : State Heap) : Heap := { s.alloc with mem := s.mem }
def ofHeap (h : Heap) : State Heap := ⟨h, h.mem⟩

/-- The state of `read_line`. -/
structure Reading where
  state : State Heap
  size : Word
  buffer : Addr
  c : Byte
  i : Word

def start (src : PageSource) (s : State Heap) : Option Reading := do
  let (buffer, alloc, m) ← Processes.calloc (heapAllocator src) s.alloc s.mem 100 1
  some ⟨⟨alloc, m⟩, 100, buffer, 0, 0⟩

/-- The buffer grows, if it is full. -/
def grow (src : PageSource) (r : Reading) : Option Reading :=
  if r.size ≤ r.i then do
    let size := r.size + 100
    let (buffer, h) ← Malloc.realloc src (heapOf r.state) r.buffer size
    some { r with state := ofHeap h, size := size, buffer := buffer }
  else some r

/-- `std_get`. -/
def fetch (src : PageSource) (std : Addr) (r : Reading) : Reading :=
  { r with c := (stdGet (heapAllocator src) std r.state).1, state := (stdGet (heapAllocator src) std r.state).2 }

/-- `buffer[i] = c; i++;` -/
def put (r : Reading) : Reading :=
  { r with state := { r.state with mem := r.state.mem.store8 (r.buffer + r.i) r.c }, i := r.i + 1 }

/-- One round of the loop. -/
def round (src : PageSource) (std : Addr) (r : Reading) : Option Reading :=
  let r := fetch src std r
  if r.c ≠ 0 then (grow src r).map put else some r

/-- What `read_line` does while the characters `cs` arrive, one after another, between its rounds. -/
inductive Reads (src : PageSource) (std : Addr) (r₀ : Reading) : Reading → List Byte → Prop
  | start : Reads src std r₀ r₀ []
  | arrive {r : Reading} {cs : List Byte} {c : Byte} {s : State Heap} : Reads src std r₀ r cs →
      stdPut (heapAllocator src) std c r.state = some s → Reads src std r₀ { r with state := s } (cs ++ [c])
  | round {r r' : Reading} {cs : List Byte} : Reads src std r₀ r cs → r.c ≠ newline →
      round src std r = some r' →
      Reads src std r₀ r' cs

/-- The characters: `std_get` returns 0 if there is none. -/
def chars (cs : List Byte) : List Byte := cs.filter (· ≠ 0)

/-- What arrives are the characters of a line, and others after it. -/
def Arrives (cs line : List Byte) : Prop := ∃ more, chars cs <+: line ++ newline :: more

/-- A line is read into the buffer, `queue` being in the stream at the start: each character is
stored in the payload of the block there, and at the end the block holds all of them, and a NUL. -/
structure ReadsLine (src : PageSource) (std : Addr) (r₀ : Reading) (queue line : List Byte) : Prop where
  inside : ∀ r cs r', Reads src std r₀ r cs → Arrives (queue ++ cs) line → r.c ≠ newline →
    (fetch src std r).c ≠ 0 → grow src (fetch src std r) = some r' →
      r'.i < actualSize r'.state.mem (r'.buffer - sizeofBlkHeader)
  whole : ∀ r cs, Reads src std r₀ r cs → Arrives (queue ++ cs) line → r.c = newline →
    (∀ j < line.length + 1, r.state.mem (r.buffer + BitVec.ofNat 32 j) = (line ++ [newline]).getD j 0) ∧
      line.length + 1 < (actualSize r.state.mem (r.buffer - sizeofBlkHeader)).toNat ∧
      r.state.mem (r.buffer + BitVec.ofNat 32 (line.length + 1)) = 0

/-- The characters `got` have been stored. What is behind them in the `n` bytes of the block is as
it was in `m₀`. -/
structure Holding (m₀ : Mem) (n : Nat) (buffer std : Addr) (r : Reading) (xs : List Addr) (queue : List Byte)
    (others : List Block) (got : List Byte) : Prop where
  inv : Inv (Owns [⟨buffer, 100⟩] r.state.mem) r.state std xs queue others
  buffer_eq : r.buffer = buffer
  i : r.i.toNat = got.length
  actual : (actualSize r.state.mem (buffer - sizeofBlkHeader)).toNat = n
  le : got.length ≤ n
  stored : ∀ j < got.length, r.state.mem (buffer + BitVec.ofNat 32 j) = got.getD j 0
  rest : ∀ j, got.length ≤ j → j < n →
    r.state.mem (buffer + BitVec.ofNat 32 j) = m₀ (buffer + BitVec.ofNat 32 j)

/-- What `size` is before a character is stored. -/
def sizeAt (i : Nat) : Word := if i ≤ 100 then 100 else 200

section

variable {src : PageSource} {s : State Heap} {std buffer x : Addr} {r r' r₀ : Reading} {xs ys : List Addr}
  {queue queue' line got cs : List Byte} {c : Byte} {others live : List Block} {m m' m₀ : Mem} {n : Nat} {h : Heap}

/-! ## One round -/

/-- The bytes of the block. -/
theorem Holding.fits (H : Holding m₀ n buffer std r xs queue others got) :
    100 ≤ n ∧ buffer.toNat + n ≤ 2 ^ 32 ∧ 12 ≤ buffer.toNat ∧
      (buffer - sizeofBlkHeader).toNat + 12 ≤ 2 ^ 32 := by
  obtain ⟨h1, h2, h3⟩ := H.inv.owns.payload
  have h100 : (Live.mk buffer 100).asked.toNat = 100 := rfl
  have hact := H.actual
  have hh : (Live.mk buffer 100).header = buffer - sizeofBlkHeader := rfl
  simp only [Live.payloadEnd, h100, hh] at h1 h2 h3
  omega

/-- The allocator leaves the buffer alone. -/
theorem Holding.of_owns (H : Holding m₀ n buffer std r xs queue others got)
    (I : Inv (Owns [⟨buffer, 100⟩] r.state.mem) s std ys queue' others) (size : Word) (c : Byte) :
    Holding m₀ n buffer std ⟨s, size, r.buffer, c, r.i⟩ ys queue' others got := by
  obtain ⟨-, hw, -, hw'⟩ := H.fits
  obtain ⟨hact, hsame⟩ := I.owns.same hw'
  have hact : actualSize s.mem (buffer - sizeofBlkHeader) = actualSize r.state.mem (buffer - sizeofBlkHeader) := hact
  have hbyte : ∀ j < n, s.mem (buffer + BitVec.ofNat 32 j) = r.state.mem (buffer + BitVec.ofNat 32 j) :=
    fun j hj => by
    have hn : (actualSize r.state.mem (Live.mk buffer 100).header).toNat = n := H.actual
    have e := toNat_add_lt hj hw
    rw [hn] at hsame
    exact hsame _ (by simp only []; omega) (by simp only []; omega)
  have hle := H.le
  exact ⟨{ I with owns := I.owns.rebase }, H.buffer_eq, H.i, hact ▸ H.actual, H.le,
    fun j hj => (hbyte j (by omega)).trans (H.stored j hj), fun j hj hj' => (hbyte j hj').trans (H.rest j hj hj')⟩

theorem Holding.fetch_ok (src : PageSource) (H : Holding m₀ n buffer std r (x :: xs) (c :: queue) others got) :
    (fetch src std r).c = c ∧ Holding m₀ n buffer std (fetch src std r) xs queue others got := by
  obtain ⟨hc, I⟩ := get_ok (Malloc.heap_lawful src _ _) H.inv
  exact ⟨hc, H.of_owns I _ _⟩

/-- The block is too small, and stays where it is. -/
theorem Holding.grow_ok (src : PageSource) (H : Holding m₀ n buffer std r xs queue others got)
    (hs : r.size = sizeAt got.length) (hn : got.length < 100 ∨ got.length < 200 ∧ n < 200) :
    ∃ r₁, grow src r = some r₁ ∧ Holding m₀ n buffer std r₁ xs queue others got ∧ r₁.c = r.c ∧
      r₁.size = sizeAt (got.length + 1) := by
  have hi := H.i
  by_cases h100 : got.length = 100
  · have hsize : r.size = 100 := by rw [hs, h100]; rfl
    have hi' : r.i = 100 := BitVec.eq_of_toNat_eq (hi.trans h100)
    obtain ⟨-, hw, h12, -⟩ := H.fits
    obtain ⟨O, hk⟩ := H.inv.owns.size_fixed 200
    have hp : (Live.mk buffer 100).ptr ≠ 0 := by
      rintro rfl
      exact absurd h12 (by decide)
    have hsmall : actualSize (heapOf r.state).mem (Live.mk buffer 100).header < 200 := by
      show (actualSize r.state.mem (buffer - sizeofBlkHeader)).toNat < 200
      have := H.actual
      omega
    have hr : Malloc.realloc src (heapOf r.state) buffer 200 = some _ := Malloc.realloc_small src hp hsmall
    have I : Inv (Owns [⟨buffer, 100⟩] r.state.mem)
        (ofHeap ((heapOf r.state).store (buffer - sizeofBlkHeader + 4) 200)) std xs queue others :=
      H.inv.keep (Malloc.heap_lawful src _ _) hk O
    refine ⟨_, ?_, H.of_owns I 200 r.c, rfl, ?_⟩
    · rw [grow, hsize, hi', if_pos (BitVec.le_refl _), H.buffer_eq]
      show (Malloc.realloc src (heapOf r.state) buffer 200).bind _ = _
      rw [hr]
      rfl
    · rw [h100]
      rfl
  · have hlt : ¬ r.size ≤ r.i := by
      rw [BitVec.not_le, hs, BitVec.lt_def, hi, sizeAt]
      split
      · show got.length < 100
        omega
      · show got.length < 200
        omega
    refine ⟨r, if_neg hlt, H, rfl, ?_⟩
    rw [hs, sizeAt, sizeAt]
    exact if_congr (by omega) rfl rfl

theorem Holding.put_ok (src : PageSource) (H : Holding m₀ n buffer std r xs queue others got) (hn : got.length < n) :
    Holding m₀ n buffer std (put r) xs queue others (got ++ [r.c]) := by
  obtain ⟨-, hw, hb, -⟩ := H.fits
  have hi : r.i = BitVec.ofNat 32 got.length := by
    rw [← H.i, BitVec.ofNat_toNat, BitVec.setWidth_eq]
  have e := toNat_add_lt hn hw
  have hc : Changes (range buffer n) r.state.mem (put r).state.mem := by
    refine store8_changes.mono fun k hk => ?_
    rw [H.buffer_eq, hi, mem_range, e] at hk
    rw [mem_range]
    omega
  have hact := H.actual
  obtain ⟨O, hk, hactual⟩ := H.inv.owns.write_fixed hc hact.ge
  have hlen : (got ++ [r.c]).length = got.length + 1 := by rw [List.length_append, List.length_singleton]
  have hbyte : ∀ j < n, j ≠ got.length →
      (put r).state.mem (buffer + BitVec.ofNat 32 j) = r.state.mem (buffer + BitVec.ofNat 32 j) := fun j hj hne => by
    have e' := toNat_add_lt hj hw
    refine store8_apply fun h => hne ?_
    rw [H.buffer_eq, hi] at h
    rw [h, e] at e'
    omega
  refine ⟨H.inv.keep (Malloc.heap_lawful src _ _) hk O, H.buffer_eq, ?_, ?_, ?_, fun j hj => ?_, fun j hj hj' => ?_⟩
  · show (r.i + 1).toNat = _
    rw [hlen, BitVec.toNat_add, H.i, show (1 : Word).toNat = 1 from rfl]
    exact Nat.mod_eq_of_lt (by omega)
  · exact (congrArg BitVec.toNat hactual).trans hact
  · omega
  · rw [hlen] at hj
    by_cases h : j = got.length
    · rw [h, List.getD_append_right _ _ _ _ (Nat.le_refl _), Nat.sub_self]
      show (r.state.mem.store8 (r.buffer + r.i) r.c) _ = _
      rw [H.buffer_eq, hi, store8_self]
      rfl
    · rw [hbyte j (by omega) h, H.stored j (by omega), List.getD_append _ _ _ _ (by omega)]
  · rw [hlen] at hj
    rw [hbyte j hj' (by omega)]
    exact H.rest j (by omega) hj'

/-- A character is stored. -/
theorem Holding.round_ok (src : PageSource)
    (H : Holding m₀ n buffer std r (x :: xs) (c :: queue) others got) (hc : c ≠ 0)
    (hs : r.size = sizeAt got.length) (hlt : got.length < n) (hn : got.length < 100 ∨ got.length < 200 ∧ n < 200) :
    ∃ r', round src std r = some r' ∧ Holding m₀ n buffer std r' xs queue others (got ++ [c]) ∧ r'.c = c ∧
      r'.size = sizeAt (got.length + 1) := by
  obtain ⟨e, H₁⟩ := H.fetch_ok src
  obtain ⟨r₂, hg, H₂, e₂, hs₂⟩ := H₁.grow_ok src hs hn
  have ec : r₂.c = c := e₂.trans e
  refine ⟨put r₂, ?_, ec ▸ H₂.put_ok src hlt, ec, hs₂⟩
  rw [round, if_pos (e ▸ hc), hg]
  rfl

/-- Nothing is, if there is none. -/
theorem Holding.round_none (src : PageSource) (H : Holding m₀ n buffer std r xs queue others got)
    (h0 : queue.headD 0 = 0) :
    ∃ r' ys, round src std r = some r' ∧ Holding m₀ n buffer std r' ys queue.tail others got ∧ r'.c = 0 ∧
      r'.size = r.size := by
  cases queue with
  | nil =>
    obtain rfl := List.map_eq_nil_iff.mp H.inv.vals
    have e : fetch src std r = { r with c := 0 } := by rw [fetch, get_nil H.inv.toLinked]
    refine ⟨fetch src std r, [], ?_, ?_, ?_, rfl⟩
    · rw [round, if_neg]
      rw [e]
      exact not_not.mpr rfl
    · rw [e]
      exact H.of_owns H.inv _ _
    · rw [e]
  | cons c queue =>
    obtain ⟨x, xs, rfl, -, -⟩ := List.map_eq_cons_iff.mp H.inv.vals
    obtain ⟨e, H₁⟩ := H.fetch_ok src
    have e0 : (fetch src std r).c = 0 := e.trans h0
    exact ⟨fetch src std r, xs, if_neg (not_not.mpr e0), H₁, e0, rfl⟩

/-- A character arrives. -/
theorem Holding.arrive_ok (H : Holding m₀ n buffer std r xs queue others got)
    (hp : stdPut (heapAllocator src) std c r.state = some s) :
    ∃ p, Holding m₀ n buffer std { r with state := s } (xs ++ [p]) (queue ++ [c]) others got := by
  obtain ⟨p, I⟩ := Vfs.put_ok (Malloc.heap_lawful src _ _) H.inv hp
  exact ⟨p, H.of_owns I _ _⟩

/-- `read_line` starts with a buffer that is cleared. -/
theorem start_ok (I : Inv (Owns [] s.mem) s std xs queue others) (h : start src s = some r₀) :
    ∃ n, Holding r₀.state.mem n r₀.buffer std r₀ xs queue others [] ∧ r₀.size = 100 ∧ r₀.c = 0 ∧
      ∀ j < 100, r₀.state.mem (r₀.buffer + BitVec.ofNat 32 j) = 0 := by
  have L := Malloc.heap_lawful src [] s.mem
  obtain ⟨⟨p, alloc, m⟩, hc, h⟩ := Option.bind_eq_some_iff.mp h
  obtain rfl := Option.some.inj h
  obtain ⟨-, O, hk, hzero⟩ := Processes.calloc_ok L I.owns (by decide) hc
  have hw : p.toNat + 100 ≤ 2 ^ 32 := L.fits O _ List.mem_cons_self
  have O' : Owns [⟨p, 100⟩] m alloc m _ := Owns.fix O
  refine ⟨_, ⟨I.keep L hk O', rfl, rfl, rfl, Nat.zero_le _, fun j hj => absurd hj (Nat.not_lt_zero _),
    fun _ _ _ => rfl⟩, rfl, rfl, fun j hj => hzero _ ?_⟩
  have e := toNat_add_lt hj hw
  rw [mem_range, show ((100 : Word) * 1).toNat = 100 from rfl]
  simp only []
  omega

/-! ## Lines that fit -/

theorem chars_append (cs cs' : List Byte) : chars (cs ++ cs') = chars cs ++ chars cs' := List.filter_append ..

/-- The next character of a line, or its end. -/
theorem prefix_next {more : List Byte} (hl : newline ∉ line) (hg : got <+: line)
    (h : got ++ [c] <+: line ++ newline :: more) : c ≠ newline ∧ got ++ [c] <+: line ∨ c = newline ∧
      got = line := by
  obtain ⟨t, rfl⟩ := hg
  rw [List.append_assoc, List.prefix_append_right_inj] at h
  cases t with
  | nil =>
    obtain rfl := (List.cons_prefix_cons.mp h).1
    exact .inr ⟨rfl, (List.append_nil _).symm⟩
  | cons d t =>
    obtain rfl := (List.cons_prefix_cons.mp h).1
    refine .inl ⟨fun e => hl (e ▸ List.mem_append_right _ List.mem_cons_self), ?_⟩
    rw [List.prefix_append_right_inj]
    exact ⟨t, rfl⟩

/-- What has been stored of a line. -/
def Got (r : Reading) (line got : List Byte) : Prop :=
  r.c ≠ newline ∧ got <+: line ∨ r.c = newline ∧ got = line ++ [newline]

theorem reads_ok (hl : newline ∉ line) (hn : line.length + 1 < 100)
    (H₀ : Holding m₀ n buffer std r₀ xs queue others []) (hs : r₀.size = 100) (hc : r₀.c = 0)
    (R : Reads src std r₀ r cs) (ha : Arrives (queue ++ cs) line) :
    ∃ ys q got, Holding m₀ n buffer std r ys q others got ∧ chars (queue ++ cs) = got ++ chars q ∧
      r.size = 100 ∧
      Got r line got := by
  induction R with
  | start => exact ⟨xs, queue, [], H₀, by simp, hs, .inl ⟨by rw [hc]; decide, List.nil_prefix⟩⟩
  | @arrive r cs c s R hp ih =>
    obtain ⟨more, ha⟩ := ha
    rw [← List.append_assoc, chars_append] at ha
    obtain ⟨ys, q, got, H, e, hs, hg⟩ := ih ⟨more, (List.prefix_append _ _).trans ha⟩
    obtain ⟨p, H'⟩ := H.arrive_ok hp
    refine ⟨ys ++ [p], q ++ [c], got, H', ?_, hs, hg⟩
    rw [← List.append_assoc, chars_append, e, chars_append, List.append_assoc]
  | @round r r' cs R hne hr ih =>
    obtain ⟨ys, q, got, H, e, hs, hg⟩ := ih ha
    obtain ⟨more, ha⟩ := ha
    obtain ⟨-, hg⟩ := hg.resolve_right fun h => hne h.1
    by_cases h0 : q.headD 0 = 0
    · obtain ⟨r₁, zs, hr₁, H₁, hc₁, hs₁⟩ := H.round_none src h0
      obtain rfl := Option.some.inj (hr.symm.trans hr₁)
      refine ⟨zs, q.tail, got, H₁, ?_, hs₁.trans hs, .inl ⟨by rw [hc₁]; decide, hg⟩⟩
      rw [e]
      cases q with
      | nil => rfl
      | cons c q =>
        obtain rfl : c = 0 := h0
        rfl
    · cases q with
      | nil => exact absurd rfl h0
      | cons c q =>
        have hc : c ≠ 0 := h0
        obtain ⟨x, zs, rfl, -, -⟩ := List.map_eq_cons_iff.mp H.inv.vals
        have hlen := hg.length_le
        have h100 := H.fits.1
        obtain ⟨r₁, hr₁, H₁, hc₁, hs₁⟩ := H.round_ok src hc (by rw [hs, sizeAt, if_pos (by omega)])
          (by omega) (.inl (by omega))
        obtain rfl := Option.some.inj (hr.symm.trans hr₁)
        have e' : chars (queue ++ cs) = got ++ [c] ++ chars q := by
          rw [e, List.append_assoc, chars, List.filter_cons_of_pos (by simpa using hc)]
          rfl
        refine ⟨zs, q, got ++ [c], H₁, e', by rw [hs₁, sizeAt, if_pos (by omega)], ?_⟩
        rw [e'] at ha
        rcases prefix_next hl hg ((List.prefix_append _ _).trans ha) with ⟨h1, h2⟩ | ⟨h1, h2⟩
        · exact .inl ⟨hc₁ ▸ h1, h2⟩
        · exact .inr ⟨hc₁.trans h1, by rw [h1, h2]⟩

/-- A line that leaves one of the cleared bytes is read as it should be. -/
theorem readsLine_of_le (hl : newline ∉ line) (hn : line.length + 1 < 100)
    (I : Inv (Owns [] s.mem) s std xs queue others) (h : start src s = some r₀) :
    ReadsLine src std r₀ queue line := by
  obtain ⟨n, H₀, hs₀, hc₀, hzero⟩ := start_ok I h
  have h100 := H₀.fits.1
  refine ⟨fun r cs r' R ha hne hf hr => ?_, fun r cs R ha hc => ?_⟩
  · obtain ⟨ys, q, got, H, -, hs, hg⟩ := reads_ok hl hn H₀ hs₀ hc₀ R ha
    have hlen := (hg.resolve_right fun h => hne h.1).2.length_le
    cases q with
    | nil =>
      obtain rfl := List.map_eq_nil_iff.mp H.inv.vals
      exact absurd (congrArg Prod.fst (get_nil H.inv.toLinked)) hf
    | cons c q =>
      obtain ⟨x, zs, rfl, -, -⟩ := List.map_eq_cons_iff.mp H.inv.vals
      obtain ⟨-, H₁⟩ := H.fetch_ok src
      obtain ⟨r₂, hr₂, H₂, -, -⟩ := H₁.grow_ok src (show r.size = _ by rw [hs, sizeAt, if_pos (by omega)])
        (.inl (by omega))
      obtain rfl := Option.some.inj (hr.symm.trans hr₂)
      have hi := H₂.i
      have ha := H₂.actual
      rw [← H₂.buffer_eq] at ha
      rw [BitVec.lt_def]
      omega
  · obtain ⟨ys, q, got, H, -, -, hg⟩ := reads_ok hl hn H₀ hs₀ hc₀ R ha
    obtain ⟨-, rfl⟩ := hg.resolve_left fun h => h.1 hc
    have hlen : (line ++ [newline]).length = line.length + 1 := by rw [List.length_append, List.length_singleton]
    rw [H.buffer_eq, H.actual]
    refine ⟨fun j hj => H.stored j (by omega), by omega, ?_⟩
    rw [H.rest _ (by omega) (by omega)]
    exact hzero _ hn

/-! ## Lines that do not -/

/-- Characters arrive, as long as there is room for their elements. -/
theorem Holding.arrive_all (H : Holding m₀ n buffer std r xs queue others got) (hr : Reads src std r₀ r cs)
    (R : Malloc.Room r.state.alloc r.state.mem (28 * line.length)) :
    ∃ r' ys, Reads src std r₀ r' (cs ++ line) ∧ Holding m₀ n buffer std r' ys (queue ++ line) others got ∧
      r'.c = r.c ∧ r'.size = r.size := by
  induction line generalizing r cs xs queue with
  | nil => exact ⟨r, xs, by rwa [List.append_nil], by rwa [List.append_nil], rfl, rfl⟩
  | cons c line ih =>
    have L := Malloc.heap_lawful src [⟨buffer, 100⟩] r.state.mem
    have hroom : Malloc.Room r.state.alloc r.state.mem
      (12 + (Malloc.align sizeofStdElt 0x10).toNat + 28 * line.length) := by
      rw [show 12 + (Malloc.align sizeofStdElt 0x10).toNat + 28 * line.length = 28 * (c :: line).length by
        rw [show (Malloc.align sizeofStdElt 0x10).toNat = 16 from rfl, List.length_cons]; omega]
      exact R
    obtain ⟨p, h', m', hm, hp, hroom'⟩ := H.inv.owns.malloc_room src (by decide) (by decide) hroom
    obtain ⟨s, hs⟩ : ∃ s, stdPut (heapAllocator src) std c r.state = some s := by
      simp only [stdPut, hm, hp, if_false, Option.bind_eq_bind, Option.bind_some]
      exact ⟨_, rfl⟩
    obtain ⟨p', m'', F, -⟩ := put_step L H.inv hs
    obtain ⟨rfl, rfl, rfl⟩ : p' = p ∧ s.alloc = h' ∧ m'' = m' := by
      simpa [eq_comm] using hm.symm.trans F.malloc
    have O := (L.malloc H.inv.owns (by decide) hm).1
    rw [if_neg hp] at O
    obtain ⟨q, H'⟩ := H.arrive_ok hs
    obtain ⟨r', ys, hr', H'', e⟩ := ih H' (.arrive hr hs) (O.write_room hroom' F.changes)
    rw [List.append_assoc] at hr' H''
    exact ⟨r', ys, hr', H'', e⟩

/-- They are stored, up to the end of the block. -/
theorem Holding.round_all (H : Holding m₀ n buffer std r xs (line ++ queue) others got) (hr : Reads src std r₀ r cs)
    (hn : n < 200) (hle : got.length + line.length ≤ n) (hl : ∀ c ∈ line, c ≠ 0 ∧ c ≠ newline)
    (hc : r.c ≠ newline) (hs : r.size = sizeAt got.length) :
    ∃ r' ys, Reads src std r₀ r' cs ∧ Holding m₀ n buffer std r' ys queue others (got ++ line) ∧
      r'.c ≠ newline ∧
      r'.size = sizeAt (got ++ line).length := by
  induction line generalizing r xs got with
  | nil => exact ⟨r, xs, hr, by rwa [List.append_nil], hc, by rwa [List.append_nil]⟩
  | cons c line ih =>
    obtain ⟨x, xs, rfl, -, -⟩ := List.map_eq_cons_iff.mp H.inv.vals
    rw [List.length_cons] at hle
    obtain ⟨h0, hnl⟩ := hl c List.mem_cons_self
    obtain ⟨r₁, hr₁, H₁, hc₁, hs₁⟩ := H.round_ok src h0 hs (by omega) (.inr ⟨by omega, hn⟩)
    have hlen : (got ++ [c]).length = got.length + 1 := by rw [List.length_append, List.length_singleton]
    obtain ⟨r', ys, hr', H', e⟩ :=
      ih H₁ (.round hr hc hr₁) (by omega) (fun c' h => hl c' (List.mem_cons_of_mem _ h))
      (hc₁ ▸ hnl) (by rw [hs₁, hlen])
    rw [List.append_assoc] at H' e
    exact ⟨r', ys, hr', H', e⟩

theorem chars_eq (hl : ∀ c ∈ cs, c ≠ 0) : chars cs = cs := List.filter_eq_self.mpr (by simpa using hl)

/-- The characters of a line, and its end, arrive and are read, but for the last of them. -/
theorem Holding.run_ok {pre : List Byte} (src : PageSource) (H : Holding m₀ n buffer std r₀ [] [] others [])
    (hn : n < 200) (R : Malloc.Room r₀.state.alloc r₀.state.mem (28 * (n + 1))) (hs : r₀.size = 100)
    (hc : r₀.c = 0) (hl : ∀ c ∈ pre, c ≠ 0 ∧ c ≠ newline) (hle : pre.length ≤ n) :
    ∃ r x, Reads src std r₀ r (pre ++ [c]) ∧ Holding m₀ n buffer std r [x] [c] others pre ∧
      r.c ≠ newline ∧
      r.size = sizeAt pre.length := by
  have hlen : (pre ++ [c]).length = pre.length + 1 := by rw [List.length_append, List.length_singleton]
  have R' : Malloc.Room r₀.state.alloc r₀.state.mem (28 * (pre ++ [c]).length) :=
    ⟨R.free, R.page, le_trans (by omega) R.le⟩
  obtain ⟨r₁, ys, hr₁, H₁, hc₁, hs₁⟩ := H.arrive_all .start R'
  replace H₁ : Holding m₀ n buffer std r₁ ys (pre ++ [c]) others [] := H₁
  obtain ⟨r₂, zs, hr₂, H₂, hc₂, hs₂⟩ :=
    H₁.round_all hr₁ hn (by simpa using hle) hl (by rw [hc₁, hc]; decide) (by rw [hs₁, hs]; rfl)
  obtain ⟨x, zs', rfl, -, hz⟩ := List.map_eq_cons_iff.mp H₂.inv.vals
  obtain rfl := List.map_eq_nil_iff.mp hz
  exact ⟨r₂, x, hr₂, H₂, hc₂, hs₂⟩

/-- The newline is stored behind what `calloc` has cleared: no NUL follows. -/
theorem not_readsLine_short (H : Holding m₀ n buffer std r₀ [] [] others []) (hn : n < 200)
    (R : Malloc.Room r₀.state.alloc r₀.state.mem (28 * (n + 1))) (hs : r₀.size = 100) (hc : r₀.c = 0)
    (hm : ∀ j, 100 ≤ j → j < n → m₀ (buffer + BitVec.ofNat 32 j) ≠ 0)
    (hl : ∀ c ∈ line, c ≠ 0 ∧ c ≠ newline) (hlen : 100 ≤ line.length + 1)
    (hle : line.length < n) : ¬ ReadsLine src std r₀ [] line := by
  rintro ⟨-, whole⟩
  obtain ⟨r, x, hr, H₁, hc₁, hs₁⟩ := H.run_ok src (c := newline) hn R hs hc hl (Nat.le_of_lt hle)
  obtain ⟨r', hr', H₂, hc₂, -⟩ := H₁.round_ok src (by decide) hs₁ hle (.inr ⟨by omega, hn⟩)
  have ha : Arrives ([] ++ (line ++ [newline])) line := ⟨[], by
    rw [List.nil_append, chars_append, chars_eq fun c hc => (hl c hc).1]
    exact List.prefix_refl _⟩
  obtain ⟨-, hlt, h0⟩ := whole r' _ (.round hr hc₁ hr') ha hc₂
  have hlen' : (line ++ [newline]).length = line.length + 1 := by rw [List.length_append, List.length_singleton]
  rw [H₂.buffer_eq, H₂.actual] at hlt
  rw [H₂.buffer_eq, H₂.rest _ (by omega) hlt] at h0
  exact hm _ hlen hlt h0

/-- A character is stored behind the block. -/
theorem not_readsLine_long (H : Holding m₀ n buffer std r₀ [] [] others []) (hn : n < 200)
    (R : Malloc.Room r₀.state.alloc r₀.state.mem (28 * (n + 1))) (hs : r₀.size = 100) (hc : r₀.c = 0)
    (hl : ∀ c ∈ line, c ≠ 0 ∧ c ≠ newline) (hle : n ≤ line.length) : ¬ ReadsLine src std r₀ [] line := by
  rintro ⟨inside, -⟩
  obtain ⟨c, post, e⟩ : ∃ c post, line.drop n ++ [newline] = c :: post := by
    cases line.drop n with
    | nil => exact ⟨newline, [], rfl⟩
    | cons c t => exact ⟨c, t ++ [newline], rfl⟩
  have he : line ++ [newline] = line.take n ++ c :: post := by
    rw [← e, ← List.append_assoc, List.take_append_drop]
  have hne : ∀ c ∈ line ++ [newline], c ≠ 0 := by
    intro c hc
    rcases List.mem_append.mp hc with hc | hc
    · exact (hl c hc).1
    · rw [List.mem_singleton.mp hc]
      decide
  have hc0 : c ≠ 0 := hne c (he ▸ List.mem_append_right _ List.mem_cons_self)
  have hlen : (line.take n).length = n := List.length_take_of_le hle
  obtain ⟨r, x, hr, H₁, hc₁, hs₁⟩ := H.run_ok src (c := c) hn R hs hc
    (fun c hc => hl c (List.mem_of_mem_take hc)) (le_of_eq hlen)
  have ha : Arrives ([] ++ (line.take n ++ [c])) line := by
    have hp : line.take n ++ [c] <+: line ++ [newline] := he ▸ ⟨post, by rw [List.append_assoc]; rfl⟩
    refine ⟨[], ?_⟩
    rwa [List.nil_append, chars_eq fun c hc => hne c (hp.subset hc)]
  obtain ⟨ec, H₂⟩ := H₁.fetch_ok src
  obtain ⟨r', hr', H₃, -, -⟩ := H₂.grow_ok src hs₁ (.inr ⟨by omega, hn⟩)
  have hlt := inside r _ r' hr ha hc₁ (ec ▸ hc0) hr'
  have hi := H₃.i
  have hact := H₃.actual
  rw [← H₃.buffer_eq] at hact
  rw [BitVec.lt_def] at hlt
  omega

/-! ## A heap in which no byte is 0 -/

/-- New pages full of ones. -/
def filledPages : PageSource where
  answer _ addr n := if addr.toNat + 4096 * n.toNat ≤ 2 ^ 32 then some fun _ => 0xFF else none
  fits h := by
    split at h
    · assumption
    · cases h

/-- After `init_std`, and when `read_line` has its buffer. -/
def emptyState : State Heap := ofHeap ⟨fun _ => 0, 0, 0, 0⟩
def stdState : State Heap := ((initStd (heapAllocator filledPages) emptyState).getD (0, emptyState)).2
def filledReading : Reading := (start filledPages stdState).getD ⟨stdState, 0, 0, 0, 0⟩

theorem init_stdState : initStd (heapAllocator filledPages) emptyState = some (0xF000001C, stdState) := by
  obtain ⟨⟨p, s⟩, e, rfl⟩ := Option.map_eq_some_iff.mp
    (show (initStd (heapAllocator filledPages) emptyState).map Prod.fst = some 0xF000001C by decide)
  rw [stdState, e, Option.getD_some]

theorem start_stdState : start filledPages stdState = some filledReading := by
  obtain ⟨r, e⟩ := Option.isSome_iff_exists.mp (show (start filledPages stdState).isSome by decide)
  rw [filledReading, e, Option.getD_some]

/-- The first stream. -/
theorem init_emptyState (h : initStd (heapAllocator src) emptyState = some (std, s)) :
    Inv (Owns [] s.mem) s std [] [] [] := by
  have J := init_ok (Malloc.heap_lawful src [] emptyState.mem) (.empty _) h
  exact { J with owns := J.owns.rebase }

theorem holding_filledReading : ∃ others,
    Holding filledReading.state.mem 112 0xF0000038 0xF000001C filledReading [] []
    others [] := by
  obtain ⟨n, H, -⟩ := start_ok (init_emptyState init_stdState) start_stdState
  have e : filledReading.buffer = 0xF0000038 := by decide
  rw [e] at H
  obtain rfl : 112 = n := by
    rw [← H.actual]
    decide
  exact ⟨_, H⟩

theorem room_filledReading : Malloc.Room filledReading.state.alloc filledReading.state.mem (28 * 113) :=
  ⟨by decide, by decide, by decide⟩

theorem filled_filledReading : ∀ j, 100 ≤ j → j < 112 →
    filledReading.state.mem ((0xF0000038 : Addr) + BitVec.ofNat 32 j) ≠ 0 := by
  decide

/-- The lines that are read as they should be, whatever the heap, the stream and the order in which characters
arrive and are read: those with at most 98 characters before the newline. -/
theorem readsLine_iff (hl : ∀ c ∈ line, c ≠ 0 ∧ c ≠ newline) :
    (∀ src s std xs queue others r₀, Inv (Owns [] s.mem) s std xs queue others → start src s = some r₀ →
      ReadsLine src std r₀ queue line) ↔ line.length + 1 ≤ 99 := by
  constructor
  · intro h
    by_contra hlen
    have R := h _ _ _ _ _ _ _ (init_emptyState init_stdState) start_stdState
    obtain ⟨others, H⟩ := holding_filledReading
    rcases Nat.lt_or_ge line.length 112 with hlt | hle
    · exact not_readsLine_short H (by decide) room_filledReading (by decide) (by decide) filled_filledReading hl
        (by omega) hlt R
    · exact not_readsLine_long H (by decide) room_filledReading (by decide) (by decide) hl hle R
  · intro hlen src s std xs queue others r₀ I h
    exact readsLine_of_le (fun hmem => (hl _ hmem).2 rfl) (by omega) I h

/-- `ls`. -/
theorem readsLine_filledReading : ReadsLine filledPages 0xF000001C filledReading [] [0x6C, 0x73] :=
  (readsLine_iff (by decide)).mpr (by decide) _ _ _ _ _ _ _ (init_emptyState init_stdState) start_stdState

/-- 150 characters are too many for the block. -/
theorem not_readsLine : ¬ ∀ (src : PageSource) (s : State Heap) (std : Addr) (xs : List Addr) (queue : List Byte)
    (others : List Block) (r₀ : Reading) (line : List Byte), Inv (Owns [] s.mem) s std xs queue others →
      start src s = some r₀ → (∀ c ∈ line, c ≠ 0 ∧ c ≠ newline) →
        ReadsLine src std r₀ queue line := by
  intro h
  obtain ⟨others, H⟩ := holding_filledReading
  have hl : ∀ c ∈ List.replicate 150 (0x61 : Byte), c ≠ 0 ∧ c ≠ newline := fun c hc => by
    rw [List.eq_of_mem_replicate hc]
    decide
  have hle : 112 ≤ (List.replicate 150 (0x61 : Byte)).length := by
    rw [List.length_replicate]
    decide
  exact not_readsLine_long H (by decide) room_filledReading (by decide) (by decide) hl hle
    (h _ _ _ _ _ _ _ _ (init_emptyState init_stdState) start_stdState hl)

end

end AlexOS.Vfs
