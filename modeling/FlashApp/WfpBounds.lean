import FlashApp.WfpGood
import Mathlib.Data.List.Chain

namespace FlashApp.WfpBounds

open Bytes Interaction Flasher Wfp WfpRuns WfpGood

/-- An image where `getDataFile` puts it: at the start of the DDR memory, in a
buffer of 0x40000000 bytes. -/
structure DdrImage where
  mem : Memory
  siz : Nat
  fits : siz ≤ 0x40000000

def DdrImage.image (img : DdrImage) : WfpImage := ⟨0x40000000, img.siz⟩

def DdrImage.stop (img : DdrImage) : Nat := 0x40000000 + img.siz

/-- A data range handed to `flashDataFile` lies inside the image. -/
def InImage (img : DdrImage) : FlashEvent → Prop
  | ⟨.note (.flashDataFile _ _ _ pucData ulDataSizeInBytes), _⟩ =>
    0x40000000 ≤ pucData ∧ pucData + ulDataSizeInBytes ≤ img.stop
  | _ => True

def loopHead : FlashEvent → Option Nat
  | ⟨.note (.loopHead pucDataCnt), _⟩ => some pucDataCnt
  | _ => none

def heads (t : List FlashEvent) : List Nat := t.filterMap loopHead

def Advances (img : DdrImage) (c c' : Nat) : Prop := c' = c + (11 + headerSize img.mem c)

/-- All that is expected of a run that was watched for `n` rounds. A round that
leaves the loop does not move the cursor any more. -/
structure Confined (img : DdrImage) (n : Nat) (t : List FlashEvent) (r : Option Int) : Prop where
  inside : ∀ e ∈ t, InImage img e
  advances : (heads t).IsChain (Advances img)
  rounds : (heads t).length ≤ img.siz / 11 + 1
  returns : img.siz / 11 < n → r ≠ none

/-- The places where a chunk starts if all chunks before it are complete and
on a supported bus. -/
inductive ChunkStart (api : Headers) (img : DdrImage) : Nat → Prop
  | first (hsize : 4 ≤ img.siz) (hmagic : hasMagic img.mem 0x40000000) :
      ChunkStart api img 0x40000004
  | next {c : Nat} (h : ChunkStart api img c) (hheader : c + 12 ≤ img.stop)
      (hbus : api.Supported (headerBus img.mem c)) (hdata : c + 11 + headerSize img.mem c ≤ img.stop) :
      ChunkStart api img (c + 11 + headerSize img.mem c)

/-- No chunk of the image, in the order they lie in it, has a size that carries
its end over 2^32. -/
def NoWrap (api : Headers) (img : DdrImage) : Prop :=
  ∀ c, ChunkStart api img c → c + 12 ≤ img.stop → api.Supported (headerBus img.mem c) →
    c + 11 + headerSize img.mem c < 2 ^ 32

theorem DdrImage.stop_eq (img : DdrImage) : img.stop = 0x40000000 + img.siz := rfl

theorem heads_append (s t : List FlashEvent) : heads (s ++ t) = heads s ++ heads t :=
  List.filterMap_append

theorem DdrImage.end_eq (img : DdrImage) :
    add32 img.image.pucWfpImage img.image.sizWfpImage = img.stop := by
  have := img.fits
  exact add32_of_lt (by simp only [image]; omega)

theorem stop_le (img : DdrImage) : img.stop ≤ 0x80000000 := by
  have := img.fits
  rw [img.stop_eq]
  omega

theorem ChunkStart.bounds {api : Headers} {img : DdrImage} {c : Nat} (h : ChunkStart api img c) :
    0x40000004 ≤ c ∧ c ≤ img.stop := by
  induction h with
  | first hsize _ => exact ⟨le_rfl, by rw [img.stop_eq]; omega⟩
  | next _ _ _ hdata ih => exact ⟨by omega, hdata⟩

theorem heads_chunk {api : Headers} {m : Memory} {pucDataEnd : Nat} {s : WfpState}
    {t : List FlashEvent} {r : WfpState ⊕ Int} (h : ChunkRun api m pucDataEnd s t r) :
    heads t = [s.pucDataCnt] := by
  have hround : ∀ {u : List FlashEvent}, (∀ e ∈ u, loopHead e = none) →
      heads (headEvent s.pucDataCnt :: chunkEvent m s.pucDataCnt :: u) = [s.pucDataCnt] := by
    intro u hu
    have hu' : heads u = [] := List.filterMap_eq_nil_iff.mpr hu
    exact congrArg (s.pucDataCnt :: ·) hu'
  cases h with
  | done | noHeader | noData => rfl
  | noDevice _ ht => exact hround (ht.forall_mem (fun e he => by cases he <;> rfl) rfl)
  | flashed _ ht hu | failed _ ht hu =>
    refine hround ?_
    rw [List.forall_mem_append]
    exact ⟨ht.forall_mem (fun e he => by cases he <;> rfl) rfl,
      hu.forall_mem (fun e he => by cases he <;> rfl) rfl⟩

/-- With sizes that do not wrap, a chunk that passes the checks of the code
really lies inside the image. -/
theorem fits_of_noWrap {api : Headers} {img : DdrImage} (hw : NoWrap api img) {c : Nat}
    (hc : ChunkStart api img c) (hfits : ChunkFits img.mem img.stop c)
    (hbus : api.Supported (headerBus img.mem c)) :
    add32 c 11 = c + 11 ∧ c + 12 ≤ img.stop ∧ c + 11 + headerSize img.mem c ≤ img.stop ∧
      nextCnt img.mem c = c + 11 + headerSize img.mem c := by
  have hstop := stop_le img
  have hb := hc.bounds
  have hheader := hfits.header
  have hdata := hfits.data
  rw [add32_of_lt (by omega)] at hheader
  have hlt := hw c hc hheader hbus
  have h11 : add32 c 11 = c + 11 := add32_of_lt (by omega)
  rw [h11, add32_of_lt hlt] at hdata
  exact ⟨h11, hheader, hdata, by rw [nextCnt, h11, add32_of_lt hlt]⟩

/-- The invariant of the chunk loop. The next head of the loop is the cursor,
so it belongs to the chain already. -/
structure Inv (api : Headers) (img : DdrImage) (s : WfpState) (h : List FlashEvent) : Prop where
  start : ChunkStart api img s.pucDataCnt
  last : LastSupported api s
  inside : ∀ e ∈ h, InImage img e
  advances : (heads h ++ [s.pucDataCnt]).IsChain (Advances img)
  count : 11 * (heads h).length + 0x40000004 ≤ s.pucDataCnt

theorem inv_initial {api : Headers} {img : DdrImage} (hsize : 4 ≤ img.siz)
    (hmagic : hasMagic img.mem 0x40000000) : Inv api img (initialState api 0x40000004) [] where
  start := .first hsize hmagic
  last := .inl rfl
  inside := by simp
  advances := by simp [heads]
  count := by simp [heads, initialState]

theorem inImage_round {api : Headers} {img : DdrImage} (hw : NoWrap api img) {s s' : WfpState}
    {u v : List FlashEvent} {r : Int} (hstart : ChunkStart api img s.pucDataCnt)
    (hlast : LastSupported api s) (hfits : ChunkFits img.mem img.stop s.pucDataCnt)
    (ht : SelectRun api s (headerBus img.mem s.pucDataCnt) (headerUnit img.mem s.pucDataCnt)
      (headerCs img.mem s.pucDataCnt) u (some s'))
    (hu : FileRun api (headerBus img.mem s.pucDataCnt) s'.tDeviceDesc
      (headerOffset img.mem s.pucDataCnt) (add32 s.pucDataCnt 11)
      (headerSize img.mem s.pucDataCnt) v r) :
    ∀ e ∈ headEvent s.pucDataCnt :: chunkEvent img.mem s.pucDataCnt :: (u ++ v),
      InImage img e := by
  obtain ⟨hbus, -⟩ := select_supported ht (headerBus_lt _ _) hlast
  obtain ⟨h11, hheader, hdata, -⟩ := fits_of_noWrap hw hstart hfits hbus
  have hb := hstart.bounds
  rw [List.forall_mem_cons, List.forall_mem_cons, List.forall_mem_append]
  refine ⟨trivial, trivial, ht.forall_mem (fun e he => by cases he <;> trivial) trivial,
    hu.forall_mem (fun e he => by cases he <;> trivial) ?_⟩
  rw [h11]
  exact ⟨by omega, hdata⟩

theorem inImage_chunk {api : Headers} {img : DdrImage} (hw : NoWrap api img) {s : WfpState}
    {h t : List FlashEvent} {r : WfpState ⊕ Int} (hs : Inv api img s h)
    (hr : ChunkRun api img.mem img.stop s t r) : ∀ e ∈ t, InImage img e := by
  cases hr with
  | done | noHeader | noData => simp [InImage]
  | noDevice _ ht =>
    rw [List.forall_mem_cons, List.forall_mem_cons]
    exact ⟨trivial, trivial, ht.forall_mem (fun e he => by cases he <;> trivial) trivial⟩
  | flashed hfits ht hu => exact inImage_round hw hs.start hs.last hfits ht hu
  | failed hfits ht hu => exact inImage_round hw hs.start hs.last hfits ht hu

theorem inv_chunk {api : Headers} {img : DdrImage} (hw : NoWrap api img) {s s' : WfpState}
    {h t : List FlashEvent} (hs : Inv api img s h)
    (hr : ChunkRun api img.mem img.stop s t (.inl s')) :
    Inv api img s' (h ++ t) ∧ s.pucDataCnt + 11 ≤ s'.pucDataCnt ∧ s'.pucDataCnt ≤ img.stop := by
  have hheads := heads_chunk hr
  have hin := inImage_chunk hw hs hr
  cases hr with
  | flashed hfits ht hu =>
    obtain ⟨hbus, hlast⟩ := select_supported ht (headerBus_lt _ _) hs.last
    obtain ⟨h11, hheader, hdata, hnext⟩ := fits_of_noWrap hw hs.start hfits hbus
    have hcount := hs.count
    dsimp only
    rw [hnext]
    refine ⟨⟨.next hs.start hheader hbus hdata, hlast, ?_, ?_, ?_⟩, by omega, hdata⟩
    · rw [List.forall_mem_append]
      exact ⟨hs.inside, hin⟩
    · rw [heads_append, hheads, List.append_assoc, List.singleton_append,
        List.isChain_append_cons_cons]
      exact ⟨hs.advances, Nat.add_assoc _ _ _, .singleton _⟩
    · rw [heads_append, hheads, List.length_append, List.length_singleton]
      dsimp only
      omega

theorem loop_of_run {api : Headers} {img : DdrImage} {n : Nat} {t : List FlashEvent}
    {r : Option Int} (h : Runs (processWfp api img.mem img.image n) t r) :
    (t = [] ∧ r = some (-1)) ∨ (4 ≤ img.siz ∧ hasMagic img.mem 0x40000000 ∧
      Runs (loop (processChunk api img.mem img.stop) n (initialState api 0x40000004)) t r) := by
  rcases processWfp_cases h with hl | ⟨hsize, hmagic, hl⟩
  · exact .inl hl
  · have hstart : add32 img.image.pucWfpImage 4 = 0x40000004 := rfl
    rw [img.end_eq, hstart] at hsize hl
    exact .inr ⟨by rw [img.stop_eq] at hsize; omega, hmagic, hl⟩

theorem run_of_loop {api : Headers} {img : DdrImage} {n : Nat} {t : List FlashEvent}
    {r : Option Int} (hsize : 4 ≤ img.siz) (hmagic : hasMagic img.mem 0x40000000)
    (h : Runs (loop (processChunk api img.mem img.stop) n (initialState api 0x40000004)) t r) :
    Runs (processWfp api img.mem img.image n) t r := by
  refine processWfp_of_loop ?_ hmagic (by rw [img.end_eq]; exact h)
  rw [img.end_eq]
  change 0x40000004 ≤ 0x40000000 + img.siz
  omega

theorem trace_of_inv {api : Headers} {img : DdrImage} {s : WfpState} {h : List FlashEvent}
    (hs : Inv api img s h) :
    (∀ e ∈ h, InImage img e) ∧ (heads h ++ [s.pucDataCnt]).IsChain (Advances img) ∧
      (heads h).length ≤ img.siz / 11 := by
  have hcount := hs.count
  have hb := hs.start.bounds
  refine ⟨hs.inside, hs.advances, ?_⟩
  rw [Nat.le_div_iff_mul_le (by decide)]
  rw [img.stop_eq] at hb
  omega

theorem confined_of_noWrap {api : Headers} {img : DdrImage} (hw : NoWrap api img) {n : Nat}
    {t : List FlashEvent} {r : Option Int} (h : Runs (processWfp api img.mem img.image n) t r) :
    Confined img n t r := by
  rcases loop_of_run h with ⟨rfl, rfl⟩ | ⟨hsize, hmagic, hl⟩
  · exact ⟨by simp, by simp [heads], by simp [heads], by simp⟩
  have hi : Inv api img (initialState api 0x40000004) [] := inv_initial hsize hmagic
  have hq := loop_rule (Inv api img)
    (fun _ h => (∀ e ∈ h, InImage img e) ∧ (heads h).IsChain (Advances img) ∧
      (heads h).length ≤ img.siz / 11 + 1)
    (fun s h hs => by
      obtain ⟨hin, hadv, hlen⟩ := trace_of_inv hs
      exact ⟨hin, hadv.left_of_append, by omega⟩)
    (fun s h t s' hs hr => (inv_chunk hw hs (processChunk_cases hr)).1)
    (fun s h t b hs hr => by
      obtain ⟨hin, hadv, hlen⟩ := trace_of_inv hs
      have hr' := processChunk_cases hr
      rw [heads_append, heads_chunk hr', List.length_append, List.length_singleton,
        List.forall_mem_append]
      exact ⟨⟨hin, inImage_chunk hw hs hr'⟩, hadv, by omega⟩)
    hi hl
  rw [List.nil_append] at hq
  refine ⟨hq.1, hq.2.1, hq.2.2, fun hn => ?_⟩
  refine loop_terminates (Inv api img) (fun s => (img.stop - s.pucDataCnt) / 11) ?_ hi ?_ hl
  · intro s h t s' hs hr
    obtain ⟨hs', hadv, hstop⟩ := inv_chunk hw hs (processChunk_cases hr)
    exact ⟨hs', by omega⟩
  · change (0x40000000 + img.siz - 0x40000004) / 11 < n
    omega

/-- Every chunk start is reached in a run in which the library succeeds. -/
theorem ChunkStart.reached {api : Headers} {img : DdrImage} {c : Nat} (h : ChunkStart api img c) :
    4 ≤ img.siz ∧ hasMagic img.mem 0x40000000 ∧
      ∃ k t s, Rounds (processChunk api img.mem img.stop) (initialState api 0x40000004) k t s ∧
        s.pucDataCnt = c := by
  induction h with
  | first hsize hmagic => exact ⟨hsize, hmagic, 0, [], _, .zero, rfl⟩
  | @next c hc hheader hbus hdata ih =>
    obtain ⟨hsize, hmagic, k, t, s, hrounds, rfl⟩ := ih
    have hstop := stop_le img
    have h11 : add32 s.pucDataCnt 11 = s.pucDataCnt + 11 := add32_of_lt (by omega)
    have hnext : nextCnt img.mem s.pucDataCnt =
        s.pucDataCnt + 11 + headerSize img.mem s.pucDataCnt := by
      rw [nextCnt, h11, add32_of_lt (by omega)]
    have hfits : ChunkFits img.mem img.stop s.pucDataCnt :=
      ⟨by omega, by rw [add32_of_lt (by omega)]; omega, by rw [← nextCnt, hnext]; omega⟩
    have hrun := exec_runs goodOracle (processChunk api img.mem img.stop s) []
    obtain ⟨s', -, -, -, hr, hcnt, -⟩ := good_chunk (processChunk_cases hrun)
      (exec_good _) hfits hbus
    rw [hr] at hrun
    exact ⟨hsize, hmagic, k + 1, _, s', .succ hrounds hrun, hcnt.trans hnext⟩

/-- A size that wraps passes the check of the code, so that `flashDataFile`
gets a range that ends far behind the image. -/
theorem noWrap_of_confined {api : Headers} {img : DdrImage}
    (h : ∀ n t r, Runs (processWfp api img.mem img.image n) t r → ∀ e ∈ t, InImage img e) :
    NoWrap api img := by
  intro c hc hheader hbus
  by_contra hwrap
  obtain ⟨hsize, hmagic, k, t, s, hrounds, rfl⟩ := hc.reached
  have hstop := stop_le img
  have hsz : headerSize img.mem s.pucDataCnt < 2 ^ 32 := word_lt _ _
  have h11 : add32 s.pucDataCnt 11 = s.pucDataCnt + 11 := add32_of_lt (by omega)
  have hfits : ChunkFits img.mem img.stop s.pucDataCnt := by
    refine ⟨by omega, by rw [add32_of_lt (by omega)]; omega, ?_⟩
    rw [h11, add32_of_ge (by omega) hsz (by omega)]
    omega
  have hrun := exec_runs goodOracle (processChunk api img.mem img.stop s) []
  obtain ⟨s', u, v, e, hr, -, -, ht, -⟩ := good_chunk (processChunk_cases hrun)
    (exec_good _) hfits hbus
  rw [hr] at hrun
  have hloop := (Rounds.succ hrounds hrun).runs_loop (n := 0) (r := none) ⟨rfl, rfl⟩
  have hin := h _ _ _ (run_of_loop hsize hmagic hloop)
    (fileEvent (headerBus img.mem s.pucDataCnt) s'.tDeviceDesc (headerOffset img.mem s.pucDataCnt)
      (add32 s.pucDataCnt 11) (headerSize img.mem s.pucDataCnt)) (by rw [ht]; simp)
  have hhi := hin.2
  rw [h11] at hhi
  omega

/-- All runs stay inside the image exactly if no reachable chunk has a size
that wraps. -/
theorem confined_iff_noWrap (api : Headers) (img : DdrImage) :
    (∀ n t r, Runs (processWfp api img.mem img.image n) t r → Confined img n t r) ↔
      NoWrap api img :=
  ⟨fun h => noWrap_of_confined (fun n t r hr => (h n t r hr).inside),
    fun hw _ _ _ h => confined_of_noWrap hw h⟩

/-- A chunk that leads back to itself keeps the loop running as long as the
library succeeds. -/
theorem loop_endless {api : Headers} {m : Memory} {pucDataEnd c : Nat}
    (hfits : ChunkFits m pucDataEnd c) (hbus : api.Supported (headerBus m c))
    (hback : nextCnt m c = c) (n : Nat) {s : WfpState} (hs : s.pucDataCnt = c) :
    ∃ t, Runs (loop (processChunk api m pucDataEnd) n s) t none := by
  induction n generalizing s with
  | zero => exact ⟨[], rfl, rfl⟩
  | succ n ih =>
    subst hs
    have hrun := exec_runs goodOracle (processChunk api m pucDataEnd s) []
    obtain ⟨s', -, -, -, hr, hcnt, -⟩ := good_chunk (processChunk_cases hrun) (exec_good _) hfits hbus
    rw [hr] at hrun
    obtain ⟨t, ht⟩ := ih (hcnt.trans hback)
    exact ⟨_, runs_loop_succ.mpr (.inl ⟨s', _, t, rfl, hrun, ht⟩)⟩

/-- The magic and one chunk header for SPI unit 0 with the size 0xfffffff5,
which leads back to the start of the chunk. -/
def wrappingFile : List UInt8 :=
  [0x53, 0x57, 0x46, 0x50, 1, 0, 0, 0, 0, 0, 0, 0xf5, 0xff, 0xff, 0xff, 0]

def wrappingImage : DdrImage where
  mem := imageMemory wrappingFile
  siz := 16
  fits := by decide

theorem wrappingFile_endless {m : Memory} (hm : Holds m 0x40000000 wrappingFile) (n : Nat) :
    ∃ t, Runs (processWfp exampleHeaders m ⟨0x40000000, 16⟩ n) t none := by
  simp only [Holds, wrappingFile, List.length_cons, List.length_nil, slice, List.cons.injEq,
    Nat.reduceAdd] at hm
  obtain ⟨h0, h1, h2, h3, h4, -, -, -, -, -, -, h11, h12, h13, h14, -⟩ := hm
  have hsize : headerSize m 0x40000004 = 0xfffffff5 := by
    change le32 (m 0x4000000b) (m 0x4000000c) (m 0x4000000d) (m 0x4000000e) = 0xfffffff5
    rw [h11, h12, h13, h14]
    rfl
  have hbus : headerBus m 0x40000004 = 1 := congrArg UInt8.toNat h4
  have hback : nextCnt m 0x40000004 = 0x40000004 := by
    rw [nextCnt, hsize]
    rfl
  have hfits : ChunkFits m 0x40000010 0x40000004 :=
    ⟨by decide, by decide, by rw [← nextCnt, hback]; decide⟩
  have hspi : exampleHeaders.Supported (headerBus m 0x40000004) := by
    rw [hbus]
    decide
  obtain ⟨t, ht⟩ := loop_endless hfits hspi hback n
    (s := initialState exampleHeaders 0x40000004) rfl
  let img : DdrImage := ⟨m, 16, by decide⟩
  have hloop : Runs (loop (processChunk exampleHeaders img.mem img.stop) n
      (initialState exampleHeaders 0x40000004)) t none := ht
  have hlong : 4 ≤ 16 := by decide
  exact ⟨t, run_of_loop hlong ⟨h0, h1, h2, h3⟩ hloop⟩

theorem wrappingImage_not_confined :
    ¬ ∀ n t r, Runs (processWfp exampleHeaders wrappingImage.mem wrappingImage.image n) t r →
      Confined wrappingImage n t r := by
  intro h
  have hw : NoWrap exampleHeaders wrappingImage :=
    noWrap_of_confined (fun n t r hr => (h n t r hr).inside)
  have hlt := hw 0x40000004 (.first (by decide) (by decide)) (by decide) (by decide)
  exact absurd hlt (by decide)

end FlashApp.WfpBounds
