import FlashApp.WfpBounds

namespace FlashApp.WfpRoundTrip

open Bytes Interaction Flasher Wfp WfpRuns WfpGood

/-- A chunk of an SWFP image that can be flashed. -/
structure WfpChunk (api : Headers) where
  bus : UInt8
  unit : UInt8
  cs : UInt8
  offset : Nat
  data : List UInt8
  supported : api.Supported bus.toNat
  offset_lt : offset < 2 ^ 32
  data_ne : data ≠ []

variable {api : Headers}

def WfpChunk.header (c : WfpChunk api) : List UInt8 :=
  [c.bus, c.unit, c.cs] ++ (toLe32 c.offset ++ toLe32 c.data.length)

def WfpChunk.enc (c : WfpChunk api) : List UInt8 := c.header ++ c.data

def encChunks (cs : List (WfpChunk api)) : List UInt8 := cs.flatMap WfpChunk.enc

def enc (cs : List (WfpChunk api)) : List UInt8 := [0x53, 0x57, 0x46, 0x50] ++ encChunks cs

/-- A program operation: the bus it goes to, the offset and the data bytes. -/
abbrev Operation := Nat × Nat × List UInt8

def WfpChunk.operation (c : WfpChunk api) : Operation := (c.bus.toNat, c.offset, c.data)

def operation (api : Headers) (m : Memory) : FlashEvent → Option Operation
  | ⟨.spiFlash _ off size ptr, _⟩ => some (api.busSpi, off, slice m ptr size)
  | ⟨.sdioWrite _ off size ptr, _⟩ => some (api.busSdio, off, slice m ptr size)
  | _ => none

def operations (api : Headers) (m : Memory) (t : List FlashEvent) : List Operation :=
  t.filterMap (operation api m)

/-- The chunks that are complete in the first `k` bytes. -/
def completeIn : Nat → List (WfpChunk api) → List (WfpChunk api)
  | _, [] => []
  | k, c :: cs => if c.enc.length ≤ k then c :: completeIn (k - c.enc.length) cs else []

theorem length_enc (c : WfpChunk api) : c.enc.length = 11 + c.data.length := by
  simp [WfpChunk.enc, WfpChunk.header]
  omega

theorem twelve_le_enc (c : WfpChunk api) : 12 ≤ c.enc.length := by
  have h := List.length_pos_iff.mpr c.data_ne
  rw [length_enc]
  omega

theorem encChunks_cons (c : WfpChunk api) (cs : List (WfpChunk api)) :
    encChunks (c :: cs) = c.enc ++ encChunks cs := rfl

theorem operations_append (m : Memory) (s t : List FlashEvent) :
    operations api m (s ++ t) = operations api m s ++ operations api m t :=
  List.filterMap_append

theorem operations_eq_nil {m : Memory} {t : List FlashEvent}
    (h : ∀ e ∈ t, ¬ e.1.EraseOrProgram) : operations api m t = [] := by
  rw [operations, List.filterMap_eq_nil_iff]
  rintro ⟨c, r⟩ he
  have hc := h _ he
  cases c <;> first | rfl | exact absurd trivial hc

theorem operation_program {bus : Nat} (hbus : api.Supported bus) {m : Memory} {e : FlashEvent}
    {desc : DeviceDescription} {off ptr size : Nat}
    (he : e.1 = programCall api bus desc off ptr size) :
    operation api m e = some (bus, off, slice m ptr size) := by
  obtain ⟨c, r⟩ := e
  unfold programCall at he
  split at he
  · rename_i hspi
    obtain rfl : c = _ := he
    rw [hspi]
    rfl
  · rename_i hspi
    obtain rfl : c = _ := he
    rw [hbus.resolve_left hspi]
    rfl

theorem holds_of_prefix {m : Memory} {a : Nat} {xs ys : List UInt8} (h : Holds m a xs)
    (hp : ys <+: xs) : Holds m a ys := by
  obtain ⟨zs, rfl⟩ := hp
  exact (holds_append.mp h).1

theorem fields_of_holds {m : Memory} {a offset size : Nat} {bus unit cs : UInt8} (ha : a + 11 ≤ 2 ^ 32)
    (hoff : offset < 2 ^ 32) (hsize : size < 2 ^ 32)
    (h : Holds m a ([bus, unit, cs] ++ (toLe32 offset ++ toLe32 size))) :
    headerBus m a = bus.toNat ∧ headerOffset m a = offset ∧ headerSize m a = size := by
  simp only [holds_append, holds_cons, List.length_cons, List.length_nil, length_toLe32,
    Nat.add_assoc, Nat.reduceAdd] at h
  obtain ⟨⟨hb, -, -, -⟩, ho, hs⟩ := h
  refine ⟨by rw [headerBus, hb], ?_, ?_⟩
  · rw [headerOffset, add32_of_lt (by omega)]
    exact word_of_holds (by omega) hoff ho
  · rw [headerSize, add32_of_lt (by omega)]
    exact word_of_holds (by omega) hsize hs

theorem header_fields {m : Memory} {a : Nat} (c : WfpChunk api) (ha : a + 11 ≤ 2 ^ 32)
    (hlen : c.data.length < 2 ^ 32) (h : Holds m a c.header) :
    headerBus m a = c.bus.toNat ∧ headerOffset m a = c.offset ∧
      headerSize m a = c.data.length :=
  fields_of_holds ha c.offset_lt hlen h

theorem loop_chunk {m : Memory} {a stop n : Nat} {s : WfpState} {t : List FlashEvent}
    {r : Option Int} (c : WfpChunk api) (hs : s.pucDataCnt = a)
    (hend : a + c.enc.length ≤ stop) (hstop : stop ≤ 0x80000000) (hm : Holds m a c.enc)
    (hr : Runs (loop (processChunk api m stop) (n + 1) s) t r) (hg : ∀ e ∈ t, Good e) :
    ∃ s' t', s'.pucDataCnt = a + c.enc.length ∧ s'.iResult = 0 ∧
      Runs (loop (processChunk api m stop) n s') t' r ∧ (∀ e ∈ t', Good e) ∧
      operations api m t = c.operation :: operations api m t' := by
  subst a
  have h12 := twelve_le_enc c
  rw [length_enc] at hend h12 ⊢
  obtain ⟨hmh, hmd⟩ := holds_append.mp hm
  obtain ⟨hbus, hoff, hsize⟩ := header_fields c (by omega) (by omega) hmh
  have h11 : add32 s.pucDataCnt 11 = s.pucDataCnt + 11 := add32_of_lt (by omega)
  have hnext : nextCnt m s.pucDataCnt = s.pucDataCnt + 11 + c.data.length := by
    rw [nextCnt, h11, hsize, add32_of_lt (by omega)]
  have hfits : ChunkFits m stop s.pucDataCnt :=
    ⟨by omega, by rw [add32_of_lt (by omega)]; omega, by rw [← nextCnt, hnext]; omega⟩
  have hsup : api.Supported (headerBus m s.pucDataCnt) := by rw [hbus]; exact c.supported
  rcases runs_loop_succ.mp hr with ⟨s', t₁, t₂, rfl, h₁, h₂⟩ | ⟨b, rfl, hb⟩
  · obtain ⟨s'', u, v, e, hinl, hcnt, hres, rfl, he, hu, hv⟩ := good_chunk
      (processChunk_cases h₁) (fun e he => hg e (List.mem_append_left _ he)) hfits hsup
    obtain rfl := Sum.inl.inj hinl
    refine ⟨s', t₂, by rw [hcnt, hnext]; omega, hres, h₂,
      fun e he => hg e (List.mem_append_right _ he), ?_⟩
    have hop := operation_program (m := m) hsup he
    have hdata : Holds m (s.pucDataCnt + 11) c.data := by simpa [WfpChunk.header] using hmd
    rw [Holds] at hdata
    have hv' : operations api m (fileEvent (headerBus m s.pucDataCnt) s'.tDeviceDesc
        (headerOffset m s.pucDataCnt) (add32 s.pucDataCnt 11) (headerSize m s.pucDataCnt) :: v) =
        [] := operations_eq_nil (List.forall_mem_cons.mpr ⟨by simp [Call.EraseOrProgram], hv⟩)
    have hlast : operations api m [e] = [c.operation] := by
      simp only [operations, List.filterMap_cons, hop, List.filterMap_nil, hbus, hoff, hsize, h11,
        hdata, WfpChunk.operation]
    simp only [operations_append, operations_eq_nil hu, hv', hlast, List.nil_append,
      List.singleton_append]
  · obtain ⟨s', -, -, -, hinl, -⟩ := good_chunk (processChunk_cases hb) hg hfits hsup
    cases hinl

theorem loop_cut {m : Memory} {a k n : Nat} {s : WfpState} {t : List FlashEvent} {r : Option Int}
    (c : WfpChunk api) (hs : s.pucDataCnt = a) (hk : 0 < k) (hcut : k < c.enc.length)
    (hstop : a + c.enc.length ≤ 0x80000000) (hm : Holds m a (c.enc.take k))
    (hr : Runs (loop (processChunk api m (a + k)) (n + 1) s) t r) :
    r = some (-1) ∧ operations api m t = [] := by
  subst a
  have hleave : ∀ {t x}, ChunkRun api m (s.pucDataCnt + k) s t x →
      x = .inr (-1) ∧ operations api m t = [] := by
    intro t x hx
    have hno : ¬ ChunkFits m (s.pucDataCnt + k) s.pucDataCnt := by
      rintro ⟨-, hheader, hdata⟩
      rw [add32_of_lt (by omega)] at hheader
      rw [length_enc] at hcut hstop
      have hh : Holds m s.pucDataCnt c.header := by
        refine holds_of_prefix hm ?_
        rw [List.prefix_take_iff]
        exact ⟨List.prefix_append _ _, by simp [WfpChunk.header]; omega⟩
      obtain ⟨-, -, hsize⟩ := header_fields c (by omega) (by omega) hh
      have h11 : add32 s.pucDataCnt 11 = s.pucDataCnt + 11 := add32_of_lt (by omega)
      rw [h11, hsize, add32_of_lt (by omega)] at hdata
      omega
    cases hx with
    | done h => exact absurd (show s.pucDataCnt < s.pucDataCnt + k by omega) h
    | noHeader | noData => exact ⟨rfl, rfl⟩
    | noDevice h | flashed h | failed h => exact absurd h hno
  rcases runs_loop_succ.mp hr with ⟨s', t₁, t₂, rfl, h₁, -⟩ | ⟨b, rfl, hb⟩
  · cases (hleave (processChunk_cases h₁)).1
  · obtain ⟨hx, ho⟩ := hleave (processChunk_cases hb)
    exact ⟨congrArg some (Sum.inr.inj hx), ho⟩

theorem loop_end {m : Memory} {n : Nat} {s : WfpState} {t : List FlashEvent} {r : Option Int}
    (hres : s.iResult = 0) (hr : Runs (loop (processChunk api m s.pucDataCnt) (n + 1) s) t r) :
    r = some 0 ∧ operations api m t = [] := by
  have hleave : ∀ {t x}, ChunkRun api m s.pucDataCnt s t x →
      x = .inr 0 ∧ operations api m t = [] := by
    intro t x hx
    cases hx with
    | done => exact ⟨by rw [hres], rfl⟩
    | noHeader h | noData h => exact absurd h (lt_irrefl _)
    | noDevice h | flashed h | failed h => exact absurd h.inside (lt_irrefl _)
  rcases runs_loop_succ.mp hr with ⟨s', t₁, t₂, rfl, h₁, -⟩ | ⟨b, rfl, hb⟩
  · cases (hleave (processChunk_cases h₁)).1
  · obtain ⟨hx, ho⟩ := hleave (processChunk_cases hb)
    exact ⟨congrArg some (Sum.inr.inj hx), ho⟩

def AtBoundary (k : Nat) (cs : List (WfpChunk api)) : Prop :=
  ∃ j, k = (encChunks (cs.take j)).length

theorem atBoundary_zero (cs : List (WfpChunk api)) : AtBoundary 0 cs := ⟨0, by simp [encChunks]⟩

theorem atBoundary_cons {k : Nat} {c : WfpChunk api} {cs : List (WfpChunk api)}
    (hk : c.enc.length ≤ k) : AtBoundary k (c :: cs) ↔ AtBoundary (k - c.enc.length) cs := by
  have h12 := twelve_le_enc c
  constructor
  · rintro ⟨j, hj⟩
    cases j with
    | zero => simp [encChunks] at hj; omega
    | succ j =>
      refine ⟨j, ?_⟩
      rw [List.take_succ_cons, encChunks_cons, List.length_append] at hj
      omega
  · rintro ⟨j, hj⟩
    refine ⟨j + 1, ?_⟩
    rw [List.take_succ_cons, encChunks_cons, List.length_append]
    omega

theorem not_atBoundary {k : Nat} {c : WfpChunk api} {cs : List (WfpChunk api)} (hk : 0 < k)
    (hcut : k < c.enc.length) : ¬ AtBoundary k (c :: cs) := by
  rintro ⟨j, hj⟩
  cases j with
  | zero => simp [encChunks] at hj; omega
  | succ j =>
    rw [List.take_succ_cons, encChunks_cons, List.length_append] at hj
    omega

theorem completeIn_zero (cs : List (WfpChunk api)) : completeIn 0 cs = [] := by
  cases cs with
  | nil => rfl
  | cons c cs =>
    have h12 := twelve_le_enc c
    exact if_neg (by omega)

/-- The chunk loop on the first `k` bytes of encoded chunks, by induction on
the chunks. -/
theorem loop_chunks (cs : List (WfpChunk api)) {m : Memory} {a k n : Nat} {s : WfpState}
    {t : List FlashEvent} {r : Option Int} (hs : s.pucDataCnt = a) (hres : s.iResult = 0)
    (hk : k ≤ (encChunks cs).length) (hstop : a + (encChunks cs).length ≤ 0x80000000)
    (hm : Holds m a ((encChunks cs).take k)) (hn : cs.length < n)
    (hr : Runs (loop (processChunk api m (a + k)) n s) t r) (hg : ∀ e ∈ t, Good e) :
    (AtBoundary k cs → r = some 0) ∧ (¬ AtBoundary k cs → r = some (-1)) ∧
      operations api m t = (completeIn k cs).map WfpChunk.operation := by
  obtain ⟨n, rfl⟩ : ∃ n', n = n' + 1 := ⟨n - 1, by omega⟩
  induction cs generalizing a k n s t with
  | nil =>
    obtain rfl : k = 0 := by simpa [encChunks] using hk
    subst a
    obtain ⟨hr', ho⟩ := loop_end hres hr
    exact ⟨fun _ => hr', fun h => absurd (atBoundary_zero _) h, by rw [ho]; rfl⟩
  | cons c cs ih =>
    rcases Nat.eq_zero_or_pos k with rfl | hpos
    · subst a
      obtain ⟨hr', ho⟩ := loop_end hres hr
      exact ⟨fun _ => hr', fun h => absurd (atBoundary_zero _) h,
        by rw [ho, completeIn_zero]; rfl⟩
    rw [encChunks_cons, List.length_append] at hk hstop
    rw [encChunks_cons] at hm
    rcases Nat.lt_or_ge k c.enc.length with hcut | hfull
    · rw [List.take_append_of_le_length (by omega)] at hm
      obtain ⟨hr', ho⟩ := loop_cut c hs hpos hcut (by omega) hm hr
      refine ⟨fun h => absurd h (not_atBoundary hpos hcut), fun _ => hr', ?_⟩
      rw [ho, completeIn, if_neg (by omega)]
      rfl
    · obtain ⟨j, rfl⟩ := Nat.exists_eq_add_of_le hfull
      rw [List.take_length_add_append, holds_append] at hm
      obtain ⟨s', t', hs', hres', hr', hg', ho⟩ := loop_chunk c hs (by omega) (by omega) hm.1 hr hg
      rw [← Nat.add_assoc] at hr'
      rw [List.length_cons] at hn
      obtain ⟨n, rfl⟩ : ∃ n', n = n' + 1 := ⟨n - 1, by omega⟩
      obtain ⟨h0, h1, hops⟩ := ih hs' hres' (k := j) (by omega) (by omega) hm.2 hg' n (by omega) hr'
      rw [atBoundary_cons hfull, Nat.add_sub_cancel_left]
      refine ⟨h0, h1, ?_⟩
      rw [ho, hops, completeIn, if_pos hfull, Nat.add_sub_cancel_left, List.map_cons]

theorem completeIn_all (cs : List (WfpChunk api)) : completeIn (encChunks cs).length cs = cs := by
  induction cs with
  | nil => rfl
  | cons c cs ih =>
    rw [encChunks_cons, List.length_append, completeIn, if_pos (by omega),
      Nat.add_sub_cancel_left, ih]

theorem length_encMagic (cs : List (WfpChunk api)) :
    (enc cs).length = 4 + (encChunks cs).length := by
  rw [enc, List.length_append]
  rfl

theorem run_of_short {m : Memory} {k n : Nat} {t : List FlashEvent} {r : Option Int} (hk : k < 4)
    (hr : Runs (processWfp api m ⟨0x40000000, k⟩ n) t r) : r = some (-1) ∧ t = [] := by
  rcases processWfp_cases hr with ⟨ht, hr'⟩ | ⟨hsize, -, -⟩
  · exact ⟨hr', ht⟩
  · dsimp only at hsize
    rw [add32_of_lt (by omega), add32_of_lt (by omega)] at hsize
    omega

theorem hasMagic_of_holds {m : Memory} (h : Holds m 0x40000000 [0x53, 0x57, 0x46, 0x50]) :
    hasMagic m 0x40000000 := by
  simp only [holds_cons] at h
  exact ⟨h.1, h.2.1, h.2.2.1, h.2.2.2.1⟩

theorem run_loop {m : Memory} {j n : Nat} {t : List FlashEvent} {r : Option Int}
    (hmagic : hasMagic m 0x40000000) (hj : 4 + j ≤ 0x40000000)
    (hr : Runs (processWfp api m ⟨0x40000000, 4 + j⟩ n) t r) :
    Runs (loop (processChunk api m (0x40000004 + j)) n (initialState api 0x40000004)) t r := by
  have hstop : add32 0x40000000 (4 + j) = 0x40000004 + j := by
    rw [add32_of_lt (by omega)]
    omega
  have hstart : add32 0x40000000 4 = 0x40000004 := rfl
  have hsize : ¬ 0x40000004 + j < 0x40000004 := by omega
  simpa only [processWfp, hstop, hstart, gt_iff_lt, if_neg hsize, if_pos hmagic] using hr

/-- SWFP decoding undoes encoding. The image holds the first `k` bytes of the
encoded chunks: with all of them every chunk is programmed once and in order,
and a cut anywhere inside a chunk or the magic is an error after the chunks
that are complete. -/
theorem processWfp_enc (cs : List (WfpChunk api)) {m : Memory} {k n : Nat} {t : List FlashEvent}
    {r : Option Int} (hfit : (enc cs).length ≤ 0x40000000) (hk : k ≤ (enc cs).length)
    (hm : Holds m 0x40000000 ((enc cs).take k)) (hn : cs.length < n)
    (hr : Runs (processWfp api m ⟨0x40000000, k⟩ n) t r) (hg : ∀ e ∈ t, Good e) :
    (k = (enc cs).length → r = some 0 ∧ operations api m t = cs.map WfpChunk.operation) ∧
    ((∀ j, k ≠ (enc (cs.take j)).length) →
      r = some (-1) ∧ operations api m t = (completeIn (k - 4) cs).map WfpChunk.operation) := by
  rw [length_encMagic] at hfit hk
  simp only [length_encMagic]
  rcases Nat.lt_or_ge k 4 with hshort | hfull
  · obtain ⟨rfl, rfl⟩ := run_of_short hshort hr
    refine ⟨fun h => by omega, fun _ => ⟨rfl, ?_⟩⟩
    rw [Nat.sub_eq_zero_of_le hshort.le, completeIn_zero]
    rfl
  · obtain ⟨j, rfl⟩ := Nat.exists_eq_add_of_le hfull
    rw [enc, List.take_append, List.take_of_length_le (by simp), holds_append] at hm
    rw [show 4 + j - [0x53, 0x57, 0x46, (0x50 : UInt8)].length = j from
      Nat.add_sub_cancel_left 4 j] at hm
    have hl := run_loop (hasMagic_of_holds hm.1) (by omega) hr
    have hend : 0x40000004 + (encChunks cs).length ≤ 0x80000000 := by omega
    obtain ⟨h0, h1, ho⟩ := loop_chunks cs (s := initialState api 0x40000004) rfl rfl (by omega)
      hend hm.2 hn hl hg
    rw [Nat.add_sub_cancel_left]
    constructor
    · intro he
      obtain rfl : j = (encChunks cs).length := by omega
      refine ⟨h0 ⟨cs.length, by rw [List.take_length]⟩, ?_⟩
      rw [ho, completeIn_all]
    · intro hne
      refine ⟨h1 ?_, ho⟩
      rintro ⟨i, hi⟩
      exact hne i (by omega)

def exampleChunks : List (WfpChunk exampleHeaders) :=
  [⟨1, 0, 0, 0x1000, [0xaa, 0xbb], by decide, by decide, by decide⟩,
    ⟨3, 0, 0, 0x200, [0xcc], by decide, by decide, by decide⟩]

theorem holds_imageMemory (bs : List UInt8) (k : Nat) :
    Holds (imageMemory bs) 0x40000000 (bs.take k) := by
  refine List.ext_getElem? fun i => ?_
  rcases Nat.lt_or_ge i (bs.take k).length with hi | hi
  · rw [getElem?_slice _ _ _ _ hi, List.getElem?_eq_getElem hi, List.getElem_take, imageMemory,
      Nat.add_sub_cancel_left, List.getD_eq_getElem]
  · rw [List.getElem?_eq_none hi, List.getElem?_eq_none (by rwa [length_slice])]

/-- Both chunks are programmed, and a cut in the second one leaves the first. -/
theorem processWfp_enc_exampleChunks :
    let run := fun k => exec goodOracle (processWfp exampleHeaders
      (imageMemory (enc exampleChunks)) ⟨0x40000000, k⟩ 3) []
    ((run 29).2 = some 0 ∧ operations exampleHeaders (imageMemory (enc exampleChunks))
      (run 29).1 = exampleChunks.map WfpChunk.operation) ∧
    (run 28).2 = some (-1) ∧ operations exampleHeaders (imageMemory (enc exampleChunks))
      (run 28).1 = (completeIn 24 exampleChunks).map WfpChunk.operation := by
  intro run
  refine ⟨(processWfp_enc exampleChunks (by decide) (by decide) (holds_imageMemory _ _) (by decide)
    (exec_runs goodOracle _ []) (exec_good _)).1 (by decide),
    (processWfp_enc exampleChunks (by decide) (by decide) (holds_imageMemory _ _) (by decide)
    (exec_runs goodOracle _ []) (exec_good _)).2 ?_⟩
  intro j
  match j with
  | 0 | 1 => decide
  | j + 2 =>
    rw [List.take_of_length_le (by simp [exampleChunks])]
    decide

end FlashApp.WfpRoundTrip
