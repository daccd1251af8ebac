import FlashApp.WfpJoin

namespace FlashApp.WfpFlash

open Bytes Interaction Flasher Wfp WfpRuns WfpGood WfpBounds WfpJoin

inductive Device where
  | spi (unit cs : Nat)
  | sdio
  deriving DecidableEq

/-- What the devices hold. -/
abbrev Content := Device → Memory

/-- An erased byte has all bits set. -/
def erased (m : Memory) (a b : Nat) : Memory := fun x => if a ≤ x ∧ x < b then 0xff else m x

/-- To program a flash is to clear bits. -/
def programmed (m : Memory) (a : Nat) (bs : List UInt8) : Memory :=
  fun x => if a ≤ x then (bs[x - a]?.map fun b => m x &&& b).getD (m x) else m x

def spiOf (uiUnitCs : Nat × Nat) : Device := .spi uiUnitCs.1 uiUnitCs.2

/-- The flasher library: the unit and the chip select that are in the info of an
SPI flash, how its sectors lie, and what a call does to the devices. Of a call
that fails to erase or program nothing is known. -/
structure Library where
  chipOf : List UInt8 → Nat × Nat
  eraseArea : (unit cs start stop : Nat) → Nat × Nat
  effect : Memory → Content → FlashEvent → Content
  covers : ∀ unit cs start stop, start ≤ stop →
    (eraseArea unit cs start stop).1 ≤ start ∧ stop ≤ (eraseArea unit cs start stop).2
  erases : ∀ m σ uInfo a b, effect m σ ⟨.spiErase uInfo a b, .ok⟩ =
    Function.update σ (spiOf (chipOf uInfo)) (erased (σ (spiOf (chipOf uInfo))) a b)
  programs : ∀ m σ uInfo off size ptr, effect m σ ⟨.spiFlash uInfo off size ptr, .ok⟩ =
    Function.update σ (spiOf (chipOf uInfo)) (programmed (σ (spiOf (chipOf uInfo))) off (slice m ptr size))
  writes : ∀ m σ desc off size ptr, effect m σ ⟨.sdioWrite desc off size ptr, .ok⟩ =
    Function.update σ .sdio (store (σ .sdio) off (slice m ptr size))
  reads : ∀ m σ (e : FlashEvent), ¬ e.1.EraseOrProgram → effect m σ e = σ

def Library.device (lib : Library) (uInfo : List UInt8) : Device := spiOf (lib.chipOf uInfo)

def content (lib : Library) (m : Memory) (σ : Content) (t : List FlashEvent) : Content :=
  t.foldl (lib.effect m) σ

/-- The answers of a library that does what it says: the info of a flash that
was found is the one of that flash, the area to erase is made of the sectors of
the data, and an area that is reported as erased is erased. -/
def Lawful (lib : Library) (σ : Content) : FlashEvent → Prop
  | ⟨.spiDetect cfg, (.ok, uInfo)⟩ => lib.chipOf uInfo = (cfg.uiUnit, cfg.uiChipSelect)
  | ⟨.spiGetEraseArea uInfo start stop, (.ok, a, b)⟩ =>
    (a, b) = lib.eraseArea (lib.chipOf uInfo).1 (lib.chipOf uInfo).2 start stop
  | ⟨.spiIsErased uInfo a b, (.ok, 0xff)⟩ => ∀ x, a ≤ x → x < b → σ (lib.device uInfo) x = 0xff
  | _ => True

def LawfulRun (lib : Library) (m : Memory) : Content → List FlashEvent → Prop
  | _, [] => True
  | σ, e :: t => Lawful lib σ e ∧ LawfulRun lib m (lib.effect m σ e) t

variable {api : Headers} {lib : Library} {m : Memory} {σ : Content} {t u : List FlashEvent}

theorem content_append (lib : Library) (m : Memory) (σ : Content) (t u : List FlashEvent) :
    content lib m σ (t ++ u) = content lib m (content lib m σ t) u := List.foldl_append

theorem content_cons (lib : Library) (m : Memory) (σ : Content) (e : FlashEvent) (t : List FlashEvent) :
    content lib m σ (e :: t) = content lib m (lib.effect m σ e) t := rfl

theorem content_read {e : FlashEvent} (he : ¬ e.1.EraseOrProgram) (t : List FlashEvent) :
    content lib m σ (e :: t) = content lib m σ t := by
  rw [content_cons, lib.reads _ _ _ he]

theorem content_reads (lib : Library) (m : Memory) (σ : Content) (ht : ∀ e ∈ t, ¬ e.1.EraseOrProgram) :
    content lib m σ t = σ := by
  induction t with
  | nil => rfl
  | cons e t ih =>
    rw [List.forall_mem_cons] at ht
    rw [content_read ht.1]
    exact ih ht.2

theorem lawfulRun_read {e : FlashEvent} (he : ¬ e.1.EraseOrProgram) :
    LawfulRun lib m σ (e :: t) ↔ Lawful lib σ e ∧ LawfulRun lib m σ t := by
  rw [LawfulRun, lib.reads _ _ _ he]

theorem lawfulRun_append : LawfulRun lib m σ (t ++ u) ↔
    LawfulRun lib m σ t ∧ LawfulRun lib m (content lib m σ t) u := by
  induction t generalizing σ with
  | nil => simp [LawfulRun, content]
  | cons e t ih => simp only [List.cons_append, LawfulRun, ih, content_cons, and_assoc]

theorem erased_eq {m : Memory} {a b : Nat} (h : ∀ x, a ≤ x → x < b → m x = 0xff) : erased m a b = m := by
  funext x
  rw [erased]
  split_ifs with hx
  · exact (h x hx.1 hx.2).symm
  · rfl

/-- In an erased area data is programmed as it is. -/
theorem programmed_erased (m : Memory) {a b off : Nat} {bs : List UInt8} (ha : a ≤ off)
    (hb : off + bs.length ≤ b) : programmed (erased m a b) off bs = store (erased m a b) off bs := by
  funext x
  rw [programmed, store]
  split_ifs with hx
  · by_cases hlen : x - off < bs.length
    · have hin : a ≤ x ∧ x < b := by omega
      rw [List.getElem?_eq_getElem hlen, erased, if_pos hin]
      exact UInt8.neg_one_and
    · rw [List.getElem?_eq_none (by omega)]
      rfl
  · rfl

theorem content_eraseRun {uInfo : List UInt8} {a b : Nat} (h : EraseRun uInfo a b t 0)
    (hlaw : LawfulRun lib m σ t) : content lib m σ t =
      Function.update σ (lib.device uInfo) (erased (σ (lib.device uInfo)) a b) := by
  cases h with
  | clean =>
    obtain ⟨hclean, -⟩ := hlaw
    rw [content_read id, erased_eq hclean, Function.update_eq_self]
    rfl
  | erased msg hmsg r =>
    rw [content_read id, content_cons, content_read id]
    exact lib.erases _ _ _ _ _

theorem content_spiRun {uInfo : List UInt8} {off ptr size : Nat} (h : SpiRun uInfo off ptr size t 0)
    (hlaw : LawfulRun lib m σ t) (hwrap : off + size < 2 ^ 32) :
    content lib m σ t = Function.update σ (lib.device uInfo)
      (store (erased (σ (lib.device uInfo))
        (lib.eraseArea (lib.chipOf uInfo).1 (lib.chipOf uInfo).2 off (off + size)).1
        (lib.eraseArea (lib.chipOf uInfo).1 (lib.chipOf uInfo).2 off (off + size)).2) off (slice m ptr size)) := by
  generalize hz : (0 : Int) = z at h
  cases h with
  | noArea => simp at hz
  | notErased => simp at hz
  | @programmed a b t ht r =>
    have hr : r = .ok := by
      by_contra hne
      rw [status, if_neg hne] at hz
      simp at hz
    subst hr
    rw [List.cons_append, lawfulRun_read id, lawfulRun_append] at hlaw
    obtain ⟨harea, hlaw⟩ := hlaw
    have harea' : (a, b) = lib.eraseArea (lib.chipOf uInfo).1 (lib.chipOf uInfo).2 off (off + size) := by
      rw [← add32_of_lt hwrap]
      exact harea
    obtain ⟨hlo, hhi⟩ := lib.covers (lib.chipOf uInfo).1 (lib.chipOf uInfo).2 off (off + size) (by omega)
    rw [← harea'] at hlo hhi ⊢
    rw [List.cons_append, content_read id, content_append, content_eraseRun ht hlaw.1]
    refine (lib.programs m _ uInfo off size ptr).trans ?_
    rw [← Library.device, Function.update_self, Function.update_idem,
      programmed_erased _ hlo (by rw [length_slice]; exact hhi)]

/-- What flashing a chunk is for: its data is in the device, and the rest of the
sectors that it is in is erased. -/
def program (lib : Library) (σ : Content) (c : Chunk api) : Content :=
  if c.bus.toNat = api.busSpi then
    let d := Device.spi c.unit.toNat c.cs.toNat
    let area := lib.eraseArea c.unit.toNat c.cs.toNat c.offset (c.offset + c.data.length)
    Function.update σ d (store (erased (σ d) area.1 area.2) c.offset c.data)
  else
    Function.update σ .sdio (store (σ .sdio) c.offset c.data)

def chunkAt (m : Memory) (a : Nat) (hbus : api.Supported (headerBus m a)) : Chunk api where
  bus := m a
  unit := m (add32 a 1)
  cs := m (add32 a 2)
  offset := headerOffset m a
  data := slice m (add32 a 11) (headerSize m a)
  supported := hbus
  offset_lt := word_lt _ _

theorem enc_chunkAt {a : Nat} (hbus : api.Supported (headerBus m a)) (ha : a + 11 < 2 ^ 32) :
    (chunkAt m a hbus).enc = slice m a (11 + headerSize m a) := by
  have h1 : add32 a 1 = a + 1 := add32_of_lt (by omega)
  have h2 : add32 a 2 = a + 2 := add32_of_lt (by omega)
  have h3 : add32 a 3 = a + 3 := add32_of_lt (by omega)
  have h7 : add32 a 7 = a + 7 := add32_of_lt (by omega)
  have hoff : toLe32 (headerOffset m a) = slice m (a + 3) 4 := by
    rw [headerOffset, h3, toLe32_word m (by omega)]
  have hsize : toLe32 (headerSize m a) = slice m (a + 7) 4 := by
    rw [headerSize, h7, toLe32_word m (by omega)]
  have hsplit : slice m a (11 + headerSize m a) = slice m a 3 ++ (slice m (a + 3) 4 ++ slice m (a + 7) 4) ++
      slice m (a + 11) (headerSize m a) := by
    rw [slice_add, ← slice_add m (a + 3) 4 4, ← slice_add m a 3 8]
  have hthree : slice m a 3 = [m a, m (a + 1), m (a + 2)] := rfl
  rw [hsplit, hthree, Chunk.enc]
  simp only [chunkAt, length_slice, hoff, hsize, h1, h2, add32_of_lt ha]

theorem content_fileRun {bus off ptr size : Nat} {desc : DeviceDescription}
    (h : FileRun api bus desc off ptr size t 0) (hlaw : LawfulRun lib m σ t)
    (hwrap : bus = api.busSpi → off + size < 2 ^ 32) (c : Chunk api) (hbus : c.bus.toNat = bus)
    (hoff : c.offset = off) (hdata : c.data = slice m ptr size)
    (hchip : bus = api.busSpi → lib.chipOf desc.uInfo = (c.unit.toNat, c.cs.toNat)) :
    content lib m σ t = program lib σ c := by
  generalize hz : (0 : Int) = z at h
  cases h with
  | spi hspi ht =>
    subst hz
    rw [lawfulRun_read id] at hlaw
    have hsize : c.data.length = size := by rw [hdata, length_slice]
    have hrun := content_spiRun ht hlaw.2 (hwrap hspi)
    rw [content_read id, program, if_pos (hbus.trans hspi)]
    rw [Library.device, hchip hspi] at hrun
    rw [hoff, hsize, hdata]
    exact hrun
  | sdio hsdio r =>
    have hr : r = .ok := by
      by_contra hne
      rw [status, if_neg hne] at hz
      simp at hz
    subst hr
    have hspi : ¬ c.bus.toNat = api.busSpi := by
      rw [hbus, hsdio]
      exact (busSdio_ne api).2.1
    rw [program, if_neg hspi, hoff, hdata, content_read id]
    exact lib.writes _ _ _ _ _ _
  | other => simp at hz

/-- The description that is kept is the one of the last device. -/
def Known (lib : Library) (api : Headers) (s : WfpState) : Prop :=
  s.uiLastBus = api.busSpi → s.uiLastBus < 2 ^ 8 →
    lib.chipOf s.tDeviceDesc.uInfo = (s.uiLastUnit, s.uiLastCs)

/-- To select a device does not change any, and leaves its description. -/
theorem content_selectRun {s s' : WfpState} {bus unit cs : Nat} (h : SelectRun api s bus unit cs t (some s'))
    (hbus : bus < 2 ^ 8) (hs : Known lib api s) (hlaw : LawfulRun lib m σ t) :
    content lib m σ t = σ ∧ Known lib api s' ∧
      (bus = api.busSpi → lib.chipOf s'.tDeviceDesc.uInfo = (unit, cs)) := by
  generalize ho : some s' = o at h
  cases h with
  | reuse hd =>
    obtain rfl := Option.some.inj ho
    obtain ⟨rfl, rfl, rfl⟩ := hd
    exact ⟨rfl, hs, fun hspi => hs hspi hbus⟩
  | detected hd ht =>
    obtain rfl := Option.some.inj ho
    generalize hdesc : some _ = o at ht
    cases ht with
    | found he =>
      obtain rfl := Option.some.inj hdesc
      cases he with
      | spi hspi info =>
        rw [lawfulRun_read id, lawfulRun_read id] at hlaw
        obtain ⟨-, hfound, -⟩ := hlaw
        exact ⟨by rw [content_read id, content_read id]; rfl, fun _ _ => hfound, fun _ => hfound⟩
      | sdio hsdio info =>
        have hne : bus ≠ api.busSpi := by
          rw [hsdio]
          exact (busSdio_ne api).2.1
        exact ⟨by rw [content_read id, content_read id]; rfl, fun h => absurd h hne, fun h => absurd h hne⟩
    | missing => simp at hdesc
    | other => simp at hdesc
  | failed => simp at ho

/-- No chunk that is reached has a size that wraps, in the image or in the SPI
flash it is for. -/
structure Proper (api : Headers) (img : DdrImage) : Prop where
  noWrap : NoWrap api img
  offsets : ∀ c, ChunkStart api img c → c + 12 ≤ img.stop → headerBus img.mem c = api.busSpi →
    headerOffset img.mem c + headerSize img.mem c < 2 ^ 32

variable (api) in
/-- The chunk loop has read the image as chunks up to its cursor, and the
devices hold what these are for. -/
structure FlashInv (lib : Library) (img : DdrImage) (σ : Content) (s : WfpState) (h : List FlashEvent) :
    Prop where
  known : Known lib api s
  chunks : ∃ cs : List (Chunk api),
    slice img.mem 0x40000000 (s.pucDataCnt - 0x40000000) = image cs ∧
      content lib img.mem σ h = cs.foldl (program lib) σ

theorem slice_magic {a : Nat} (ha : a + 4 ≤ 2 ^ 32) (h : hasMagic m a) :
    slice m a 4 = image ([] : List (Chunk api)) := by
  obtain ⟨h0, h1, h2, h3⟩ := h
  rw [add32_of_lt (by omega)] at h1 h2 h3
  have hfour : slice m a 4 = [m a, m (a + 1), m (a + 2), m (a + 3)] := rfl
  rw [hfour, h0, h1, h2, h3]
  rfl

theorem flashInv_initial {img : DdrImage} (hmagic : hasMagic img.mem 0x40000000) (σ : Content) :
    FlashInv api lib img σ (initialState api 0x40000004) [] where
  known _ hbus := absurd hbus (by simp [initialState])
  chunks := by
    have hcnt : (initialState api 0x40000004).pucDataCnt = 0x40000000 + 4 := rfl
    refine ⟨[], ?_, rfl⟩
    rw [hcnt, Nat.add_sub_cancel_left]
    exact slice_magic (by decide) hmagic

theorem image_snoc (cs : List (Chunk api)) (c : Chunk api) : image (cs ++ [c]) = image cs ++ c.enc := by
  simp [image, encAll]

theorem flashInv_chunk {img : DdrImage} (hp : Proper api img) {s s' : WfpState} {h : List FlashEvent}
    (hb : WfpBounds.Inv api img s h) (hi : FlashInv api lib img σ s h)
    (hr : ChunkRun api img.mem img.stop s t (.inl s')) (hlaw : LawfulRun lib img.mem (content lib img.mem σ h) t) :
    FlashInv api lib img σ s' (h ++ t) := by
  cases hr with
  | @flashed hfits u v s₁ hu hv =>
    obtain ⟨hbus, -⟩ := select_supported hu (headerBus_lt _ _) hb.last
    obtain ⟨h11, hheader, hdata, hnext⟩ := fits_of_noWrap hp.noWrap hb.start hfits hbus
    have hwrap := hp.offsets _ hb.start hheader
    rw [lawfulRun_read id, lawfulRun_read id, lawfulRun_append] at hlaw
    replace hlaw := hlaw.2.2
    obtain ⟨hsame, hknown, hchip⟩ := content_selectRun hu (headerBus_lt _ _) hi.known hlaw.1
    obtain ⟨cs, hcs, hcontent⟩ := hi.chunks
    have hlaw2 := hlaw.2
    rw [hsame] at hlaw2
    have hflash := content_fileRun hv hlaw2 hwrap (chunkAt img.mem s.pucDataCnt hbus) rfl rfl rfl hchip
    refine ⟨hknown, cs ++ [chunkAt img.mem s.pucDataCnt hbus], ?_, ?_⟩
    · have hstop := stop_le img
      have hlow := hb.start.bounds
      dsimp only
      rw [hnext, image_snoc, enc_chunkAt hbus (by omega), ← hcs]
      have hlen : s.pucDataCnt + 11 + headerSize img.mem s.pucDataCnt - 0x40000000 =
          s.pucDataCnt - 0x40000000 + (11 + headerSize img.mem s.pucDataCnt) := by omega
      have haddr : 0x40000000 + (s.pucDataCnt - 0x40000000) = s.pucDataCnt := by omega
      rw [hlen, slice_add, haddr]
    · rw [content_append, content_read id, content_read id, content_append, hsame, hflash, hcontent,
        List.foldl_append]
      rfl

def deviceOf (c : Chunk api) : Device :=
  if c.bus.toNat = api.busSpi then .spi c.unit.toNat c.cs.toNat else .sdio

/-- The part of its device that flashing a chunk changes. -/
def area (lib : Library) (c : Chunk api) : Nat × Nat :=
  if c.bus.toNat = api.busSpi then
    lib.eraseArea c.unit.toNat c.cs.toNat c.offset (c.offset + c.data.length)
  else
    (c.offset, c.offset + c.data.length)

/-- A chunk that comes later leaves the data of `c` alone. -/
def Spares (lib : Library) (later c : Chunk api) : Prop :=
  deviceOf later = deviceOf c →
    (area lib later).2 ≤ c.offset ∨ c.offset + c.data.length ≤ (area lib later).1

theorem program_device (lib : Library) (σ : Content) (c : Chunk api) :
    Holds (program lib σ c (deviceOf c)) c.offset c.data := by
  rw [program, deviceOf]
  split_ifs <;> (rw [Function.update_self]; exact holds_store _ _ _)

theorem program_out (lib : Library) (σ : Content) (c : Chunk api) {d : Device} {x : Nat}
    (h : deviceOf c = d → x < (area lib c).1 ∨ (area lib c).2 ≤ x) : program lib σ c d x = σ d x := by
  rw [deviceOf, area] at h
  rw [program]
  split_ifs at h ⊢ with hspi
  · by_cases hd : Device.spi c.unit.toNat c.cs.toNat = d
    · have hx := h hd
      obtain ⟨hlo, hhi⟩ := lib.covers c.unit.toNat c.cs.toNat c.offset (c.offset + c.data.length) (by omega)
      subst hd
      rw [Function.update_self, store_out _ (by omega), erased, if_neg (by omega)]
    · rw [Function.update_of_ne (Ne.symm hd)]
  · by_cases hd : Device.sdio = d
    · have hx := h hd
      subst hd
      rw [Function.update_self, store_out _ (by omega)]
    · rw [Function.update_of_ne (Ne.symm hd)]

theorem foldl_holds {c : Chunk api} (cs : List (Chunk api)) (hc : Holds (σ (deviceOf c)) c.offset c.data)
    (hcs : ∀ c' ∈ cs, Spares lib c' c) : Holds (cs.foldl (program lib) σ (deviceOf c)) c.offset c.data := by
  induction cs generalizing σ with
  | nil => exact hc
  | cons c' cs ih =>
    rw [List.forall_mem_cons] at hcs
    refine ih ?_ hcs.2
    have hsame : slice (program lib σ c' (deviceOf c)) c.offset c.data.length =
        slice (σ (deviceOf c)) c.offset c.data.length := by
      apply slice_congr
      intro x hlo hhi
      apply program_out
      intro hd
      have hspares := hcs.1 hd
      omega
    exact hsame.trans hc

/-- An image that `processWfp` takes is the encoding of a list of chunks, and
the devices hold then what flashing these chunks is for. -/
theorem flashed_of_run (lib : Library) {img : DdrImage} (hp : Proper api img) (σ : Content) {n : Nat}
    (hr : Runs (processWfp api img.mem img.image n) t (some 0)) (hlaw : LawfulRun lib img.mem σ t) :
    ∃ cs : List (Chunk api), slice img.mem 0x40000000 img.siz = image cs ∧
      content lib img.mem σ t = cs.foldl (program lib) σ := by
  obtain ⟨-, hfail⟩ | ⟨hsize, hmagic, hl⟩ := loop_of_run hr
  · simp at hfail
  have hq := loop_rule
    (fun s h => WfpBounds.Inv api img s h ∧ (LawfulRun lib img.mem σ h → FlashInv api lib img σ s h))
    (fun r h => r = some 0 → LawfulRun lib img.mem σ h → ∃ cs : List (Chunk api),
      slice img.mem 0x40000000 img.siz = image cs ∧ content lib img.mem σ h = cs.foldl (program lib) σ)
    (fun s h _ => by simp)
    (fun s h t s' hs hr => by
      refine ⟨(inv_chunk hp.noWrap hs.1 (processChunk_cases hr)).1, ?_⟩
      intro hlaw
      rw [lawfulRun_append] at hlaw
      exact flashInv_chunk hp hs.1 (hs.2 hlaw.1) (processChunk_cases hr) hlaw.2)
    (fun s h t b hs hr => by
      intro hb hlaw
      rw [lawfulRun_append] at hlaw
      obtain ⟨-, cs, hcs, hcontent⟩ := hs.2 hlaw.1
      have hrun := processChunk_cases hr
      generalize hx : (Sum.inr b : WfpState ⊕ Int) = x at hrun
      cases hrun with
      | done hdone =>
        have hbounds := hs.1.start.bounds
        have hend : s.pucDataCnt - 0x40000000 = img.siz := by
          rw [img.stop_eq] at hbounds hdone
          omega
        rw [hend] at hcs
        refine ⟨cs, hcs, ?_⟩
        rw [content_append, hcontent, content_read id]
        rfl
      | flashed => simp at hx
      | noHeader | noData | noDevice | failed =>
        obtain rfl := Sum.inr.inj hx
        simp at hb)
    ⟨inv_initial hsize hmagic, fun _ => flashInv_initial hmagic σ⟩ hl
  exact hq rfl hlaw

/-- An image that `processWfp` takes is the encoding of a list of chunks. With a
library that does what it says, the devices then hold what flashing these
chunks one after the other is for, and the data of each chunk whose sectors no
later one needs. -/
theorem image_flashed (lib : Library) {img : DdrImage} (hp : Proper api img) (σ : Content) {n : Nat}
    (hr : Runs (processWfp api img.mem img.image n) t (some 0)) (hlaw : LawfulRun lib img.mem σ t) :
    ∃ cs : List (Chunk api), slice img.mem 0x40000000 img.siz = image cs ∧
      content lib img.mem σ t = cs.foldl (program lib) σ ∧
      ∀ pre c post, cs = pre ++ c :: post → (∀ c' ∈ post, Spares lib c' c) →
        Holds (content lib img.mem σ t (deviceOf c)) c.offset c.data := by
  obtain ⟨cs, hcs, hcontent⟩ := flashed_of_run lib hp σ hr hlaw
  refine ⟨cs, hcs, hcontent, ?_⟩
  rintro pre c post rfl hspares
  rw [hcontent, List.foldl_append, List.foldl_cons]
  exact foldl_holds post (program_device lib _ c) hspares

theorem image_append (pre post : List (Chunk api)) : image (pre ++ post) = image pre ++ encAll post := by
  simp [image, encAll]

theorem image_fields {img : DdrImage} {pre post : List (Chunk api)} {c : Chunk api}
    (himg : Holds img.mem 0x40000000 (image (pre ++ c :: post)))
    (hsiz : img.siz = (image (pre ++ c :: post)).length) :
    headerBus img.mem (0x40000000 + (image pre).length) = c.bus.toNat ∧
      headerOffset img.mem (0x40000000 + (image pre).length) = c.offset ∧
      headerSize img.mem (0x40000000 + (image pre).length) = c.data.length := by
  have hfits := img.fits
  rw [image_append, List.length_append, encAll_cons, List.length_append, WfpJoin.length_enc] at hsiz
  rw [image_append, encAll_cons, holds_append, holds_append, Chunk.enc, holds_append] at himg
  exact WfpRoundTrip.fields_of_holds (by omega) c.offset_lt (by omega) himg.2.1.1

theorem chunkStart_image {img : DdrImage} {cs : List (Chunk api)} (himg : Holds img.mem 0x40000000 (image cs))
    (hsiz : img.siz = (image cs).length) {a : Nat} (h : ChunkStart api img a) :
    ∃ pre post, cs = pre ++ post ∧ a = 0x40000000 + (image pre).length := by
  induction h with
  | first => exact ⟨[], cs, rfl, rfl⟩
  | @next a _ hheader _ _ ih =>
    obtain ⟨pre, post, rfl, rfl⟩ := ih
    cases post with
    | nil =>
      rw [List.append_nil] at hsiz
      rw [DdrImage.stop, hsiz] at hheader
      omega
    | cons c post =>
      refine ⟨pre ++ [c], post, by simp, ?_⟩
      obtain ⟨-, -, hsize⟩ := image_fields himg hsiz
      rw [hsize, image_snoc, List.length_append, WfpJoin.length_enc]
      omega

theorem proper_image {img : DdrImage} {cs : List (Chunk api)} (himg : Holds img.mem 0x40000000 (image cs))
    (hsiz : img.siz = (image cs).length)
    (hcs : ∀ c ∈ cs, c.bus.toNat = api.busSpi → c.offset + c.data.length < 2 ^ 32) : Proper api img := by
  have hfits := img.fits
  have hchunk : ∀ a, ChunkStart api img a → a + 12 ≤ img.stop →
      ∃ pre c post, cs = pre ++ c :: post ∧ a = 0x40000000 + (image pre).length := by
    intro a ha hheader
    obtain ⟨pre, post, rfl, rfl⟩ := chunkStart_image himg hsiz ha
    cases post with
    | nil =>
      rw [List.append_nil] at hsiz
      rw [DdrImage.stop, hsiz] at hheader
      omega
    | cons c post => exact ⟨pre, c, post, rfl, rfl⟩
  refine ⟨?_, ?_⟩
  · intro a ha hheader _
    obtain ⟨pre, c, post, rfl, rfl⟩ := hchunk a ha hheader
    obtain ⟨-, -, hsize⟩ := image_fields himg hsiz
    rw [image_append, List.length_append, encAll_cons, List.length_append, WfpJoin.length_enc] at hsiz
    rw [hsize]
    omega
  · intro a ha hheader hspi
    obtain ⟨pre, c, post, rfl, rfl⟩ := hchunk a ha hheader
    obtain ⟨hbus, hoff, hsize⟩ := image_fields himg hsiz
    rw [hoff, hsize]
    exact hcs c (by simp) (hbus.symm.trans hspi)

def exampleInfo (unit cs : Nat) : List UInt8 := List.replicate unit 1 ++ 0 :: List.replicate cs 1

def exampleChip (uInfo : List UInt8) : Nat × Nat :=
  ((uInfo.takeWhile (· = 1)).length, (uInfo.dropWhile (· = 1)).tail.length)

/-- A call that fails has no effect. -/
def exampleEffect (m : Memory) (σ : Content) : FlashEvent → Content
  | ⟨.spiErase uInfo a b, .ok⟩ =>
    Function.update σ (spiOf (exampleChip uInfo)) (erased (σ (spiOf (exampleChip uInfo))) a b)
  | ⟨.spiFlash uInfo off size ptr, .ok⟩ => Function.update σ (spiOf (exampleChip uInfo))
      (programmed (σ (spiOf (exampleChip uInfo))) off (slice m ptr size))
  | ⟨.sdioWrite _ off size ptr, .ok⟩ => Function.update σ .sdio (store (σ .sdio) off (slice m ptr size))
  | _ => σ

/-- Flashes with sectors of 16 bytes. -/
def exampleLibrary : Library where
  chipOf := exampleChip
  eraseArea _ _ start stop := (start / 16 * 16, (stop + 15) / 16 * 16)
  effect := exampleEffect
  covers _ _ start stop _ := by
    dsimp only
    omega
  erases _ _ _ _ _ := rfl
  programs _ _ _ _ _ _ := rfl
  writes _ _ _ _ _ _ := rfl
  reads m σ e he := by
    obtain ⟨c, a⟩ := e
    cases c with
    | spiErase | spiFlash | sdioWrite => exact absurd trivial he
    | _ => rfl

theorem chipOf_exampleInfo (unit cs : Nat) : exampleLibrary.chipOf (exampleInfo unit cs) = (unit, cs) := by
  simp [exampleLibrary, exampleChip, exampleInfo]

/-- The library with devices behind it. -/
def exampleOracle (m : Memory) (σ : Content) : Oracle Call Answer
  | _, .spiDetect cfg => (.ok, exampleInfo cfg.uiUnit cfg.uiChipSelect)
  | _, .sdioDetectWrap => (.ok, [])
  | _, .spiRead _ _ _ => (.ok, fun _ => 0)
  | _, .spiGetEraseArea uInfo start stop =>
    (.ok, exampleLibrary.eraseArea (exampleLibrary.chipOf uInfo).1 (exampleLibrary.chipOf uInfo).2 start stop)
  | h, .spiIsErased uInfo a b =>
    (.ok, if ∀ x ∈ List.range' a (b - a),
      content exampleLibrary m σ h (exampleLibrary.device uInfo) x = 0xff then 0xff else 0)
  | _, .spiErase _ _ _ | _, .spiFlash _ _ _ _ | _, .sdioWrite _ _ _ _ => .ok
  | _, .note _ => ()

theorem exampleOracle_lawful (m : Memory) (σ : Content) (h : List FlashEvent) (c : Call) :
    Lawful exampleLibrary (content exampleLibrary m σ h) ⟨c, exampleOracle m σ h c⟩ := by
  cases c with
  | spiDetect cfg => exact chipOf_exampleInfo _ _
  | spiGetEraseArea => rfl
  | spiIsErased uInfo a b =>
    by_cases hall : ∀ x ∈ List.range' a (b - a),
        content exampleLibrary m σ h (exampleLibrary.device uInfo) x = 0xff
    · simp only [exampleOracle, if_pos hall]
      intro x hlo hhi
      exact hall x (List.mem_range'_1.mpr (by omega))
    · simp only [exampleOracle, if_neg hall]
      trivial
  | sdioDetectWrap | spiRead | spiErase | spiFlash | sdioWrite | note => trivial

theorem exec_lawful {α : Type} (m : Memory) (σ : Content) (p : FlashProg α) (h : List FlashEvent) :
    LawfulRun exampleLibrary m (content exampleLibrary m σ h) (exec (exampleOracle m σ) p h).1 := by
  induction p generalizing h with
  | pure a => trivial
  | call c k ih =>
    refine ⟨exampleOracle_lawful m σ h c, ?_⟩
    have hnext := ih (exampleOracle m σ h c) (h ++ [⟨c, exampleOracle m σ h c⟩])
    rw [content_append] at hnext
    exact hnext

theorem supported_spi : exampleHeaders.Supported (1 : UInt8).toNat := by decide

theorem supported_sdio : exampleHeaders.Supported (3 : UInt8).toNat := by decide

def exampleFile : List (Chunk exampleHeaders) :=
  [⟨1, 0, 0, 0x10, [0xaa, 0xbb], supported_spi, by decide⟩, ⟨1, 0, 0, 0x24, [0xcc], supported_spi, by decide⟩,
    ⟨3, 0, 0, 0x10, [0xdd], supported_sdio, by decide⟩]

theorem exampleOracle_succeeds {α : Type} (m : Memory) (σ : Content) (p : FlashProg α) :
    Succeeds (exec (exampleOracle m σ) p []).1 where
  calls := by
    rintro ⟨c, a⟩ he
    obtain ⟨h, ha⟩ := exec_answers _ p [] _ he
    dsimp only at ha
    rw [ha]
    cases c <;> simp [Failed, result, exampleOracle]
  erased uInfo a b r msg hi := by
    obtain ⟨pre, post, heq⟩ := hi
    have hall := exec_always (exampleOracle m σ) p []
    have hcheck := hall (pre ++ [eraseEvent uInfo a b .ok]) (checkEvent uInfo a b r msg) post
      (by rw [← heq]; simp)
    have herased : ∀ x ∈ List.range' a (b - a), content exampleLibrary m σ
        (pre ++ [eraseEvent uInfo a b .ok]) (exampleLibrary.device uInfo) x = 0xff := by
      intro x hx
      have hx' := List.mem_range'_1.mp hx
      rw [content_append]
      have herase := exampleLibrary.erases m (content exampleLibrary m σ pre) uInfo a b
      refine (congrFun (congrFun herase _) x).trans ?_
      rw [Library.device]
      refine (congrFun (Function.update_self _ _ _) x).trans ?_
      rw [erased, if_pos (by omega)]
    simp only [exampleOracle, List.nil_append, if_pos herased] at hcheck
    exact (Prod.mk.inj hcheck).2

theorem exampleFile_flashed {m : Memory} (hm : Holds m 0x40000000 (image exampleFile))
    (σ : Content) {n : Nat} (hn : 3 < n) :
    ∃ w, Runs (processWfp exampleHeaders m ⟨0x40000000, (image exampleFile).length⟩ n) w
      (some 0) ∧ LawfulRun exampleLibrary m σ w := by
  have hrun := exec_runs (exampleOracle m σ)
    (processWfp exampleHeaders m ⟨0x40000000, (image exampleFile).length⟩ n) []
  have hzero := (run_image exampleFile (by decide) hm hn hrun
    (exampleOracle_succeeds m σ _)).1 (by simp [EndsWithData, exampleFile])
  rw [hzero] at hrun
  exact ⟨_, hrun, exec_lawful m σ _ []⟩

theorem proper_exampleFile {img : DdrImage} (himg : Holds img.mem 0x40000000 (image exampleFile))
    (hsiz : img.siz = (image exampleFile).length) : Proper exampleHeaders img :=
  proper_image himg hsiz (by decide)

def ddrImage (bs : List UInt8) (hfits : bs.length ≤ 0x40000000) : DdrImage where
  mem := imageMemory bs
  siz := bs.length
  fits := hfits

theorem holds_ddrImage (bs : List UInt8) (hfits : bs.length ≤ 0x40000000) :
    Holds (ddrImage bs hfits).mem 0x40000000 bs := by
  have hall := WfpRoundTrip.holds_imageMemory bs bs.length
  rwa [List.take_length] at hall

def exampleImage : DdrImage := ddrImage (image exampleFile) (by decide)

theorem image_flashed_example :
    ∃ t, Runs (processWfp exampleHeaders exampleImage.mem exampleImage.image 4) t (some 0) ∧
      LawfulRun exampleLibrary exampleImage.mem (fun _ _ => 0) t ∧
      ∃ cs : List (Chunk exampleHeaders), slice exampleImage.mem 0x40000000 exampleImage.siz = image cs ∧
        content exampleLibrary exampleImage.mem (fun _ _ => 0) t =
          cs.foldl (program exampleLibrary) fun _ _ => 0 := by
  have hrun := exec_runs (exampleOracle exampleImage.mem fun _ _ => 0)
    (processWfp exampleHeaders exampleImage.mem exampleImage.image 4) []
  have hresult : (exec (exampleOracle exampleImage.mem fun _ _ => 0)
      (processWfp exampleHeaders exampleImage.mem exampleImage.image 4) []).2 = some 0 := by decide +kernel
  rw [hresult] at hrun
  have hlaw := exec_lawful exampleImage.mem (fun _ _ => 0)
    (processWfp exampleHeaders exampleImage.mem exampleImage.image 4) []
  have hproper : Proper exampleHeaders exampleImage := proper_exampleFile (holds_ddrImage _ _) rfl
  obtain ⟨cs, hcs, hcontent, -⟩ := image_flashed exampleLibrary hproper (fun _ _ => 0) hrun hlaw
  exact ⟨_, hrun, hlaw, cs, hcs, hcontent⟩

end FlashApp.WfpFlash
