import FlashApp.WfpGood

namespace FlashApp.WfpDevice

open Bytes Interaction Trace Flasher Wfp WfpRuns

def chunkKey : FlashEvent → Option (Nat × Nat × Nat)
  | ⟨.note (.chunk uiBus uiUnit uiCs _ _), _⟩ => some (uiBus, uiUnit, uiCs)
  | _ => none

/-- The events that clear or fill the device description. -/
inductive Touches : FlashEvent → Prop
  | clear (bus unit cs : Nat) : Touches (clearEvent bus unit cs)
  | detect {e : FlashEvent} (h : IsDetectCall e) : Touches e

/-- The description was filled by a successful detection for the bus, the unit
and the chip select, and nothing has touched it since. -/
def Filled (api : Headers) (bus unit cs : Nat) (desc : DeviceDescription) (pre : List FlashEvent) :
    Prop :=
  ∃ p e info q, pre = p ++ clearEvent bus unit cs :: e :: q ∧
    DetectEvent api bus unit cs e .ok info ∧ desc = .detected api bus info ∧
    ∀ x ∈ q, ¬ Touches x

/-- A call of `flashDataFile` is for the chunk read last and uses a description
that was filled for it. -/
def UsesDevice (api : Headers) (pre : List FlashEvent) : FlashEvent → Prop
  | ⟨.note (.flashDataFile tBus tDeviceDesc _ _ _), _⟩ =>
    ∃ uiUnit uiCs, last chunkKey pre = some (tBus, uiUnit, uiCs) ∧
      Filled api tBus uiUnit uiCs tDeviceDesc pre
  | _ => True

def IsFileCall : FlashEvent → Prop
  | ⟨.note (.flashDataFile _ _ _ _ _), _⟩ => True
  | _ => False

/-- Nothing is flashed after a chunk on another bus, and the result is -1. -/
def Rejects (api : Headers) (t : List FlashEvent) (r : Option Int) : Prop :=
  ∀ pre e post uiBus uiUnit uiCs, t = pre ++ e :: post → chunkKey e = some (uiBus, uiUnit, uiCs) →
    ¬ api.Supported uiBus → (∀ x ∈ post, ¬ IsFileCall x) ∧ r = some (-1)

variable {api : Headers} {m : Memory} {pucDataEnd : Nat} {s s' : WfpState} {h t u : List FlashEvent}

theorem usesDevice_of_not_file {e : FlashEvent} (he : ¬ IsFileCall e) (pre : List FlashEvent) :
    UsesDevice api pre e := by
  obtain ⟨c, r⟩ := e
  cases c with
  | note k => cases k <;> first | trivial | exact absurd trivial he
  | _ => trivial

theorem always_usesDevice (ht : ∀ e ∈ t, ¬ IsFileCall e) (pre : List FlashEvent) :
    Always (fun p => UsesDevice api (pre ++ p)) t :=
  Always.of_forall fun e he p => usesDevice_of_not_file (ht e he) (pre ++ p)

theorem Filled.append {bus unit cs : Nat} {desc : DeviceDescription} {pre : List FlashEvent}
    (hf : Filled api bus unit cs desc pre) (ht : ∀ x ∈ t, ¬ Touches x) :
    Filled api bus unit cs desc (pre ++ t) := by
  obtain ⟨p, e, info, q, rfl, he, hdesc, hq⟩ := hf
  refine ⟨p, e, info, q ++ t, by simp, he, hdesc, ?_⟩
  rw [List.forall_mem_append]
  exact ⟨hq, ht⟩

/-- What the loop knows about the description that it keeps. -/
def Cached (api : Headers) (s : WfpState) (h : List FlashEvent) : Prop :=
  s.uiLastBus = 0xffffffff ∨ Filled api s.uiLastBus s.uiLastUnit s.uiLastCs s.tDeviceDesc h

theorem not_touches_note {n : Note} (hn : ∀ bus unit cs, n ≠ .clearDevice bus unit cs) :
    ¬ Touches ⟨.note n, ()⟩ := by
  intro ht
  cases ht with
  | clear bus unit cs => exact hn bus unit cs rfl
  | detect hd => cases hd

theorem not_touches_flash {e : FlashEvent} (he : IsFlashCall e) : ¬ Touches e := by
  intro ht
  cases ht with
  | clear => cases he
  | detect hd => cases hd <;> cases he

theorem Cached.append (hc : Cached api s h) (ht : ∀ x ∈ t, ¬ Touches x) :
    Cached api s (h ++ t) := by
  apply hc.imp_right
  intro hf
  exact hf.append ht

theorem filled_of_select {bus unit cs : Nat} (hc : Cached api s h) (hbus : bus < 2 ^ 8)
    (hs : SelectRun api s bus unit cs t (some s')) :
    Filled api bus unit cs s'.tDeviceDesc (h ++ t) ∧ SameDevice s' bus unit cs := by
  cases hs with
  | reuse hd =>
    obtain ⟨rfl, rfl, rfl⟩ := hd
    rw [List.append_nil]
    refine ⟨hc.resolve_left ?_, rfl, rfl, rfl⟩
    omega
  | detected _ ht =>
    cases ht with
    | found he => exact ⟨⟨h, _, _, [], rfl, he, rfl, by simp⟩, rfl, rfl, rfl⟩

theorem select_not_file {bus unit cs : Nat} {r : Option WfpState}
    (hs : SelectRun api s bus unit cs t r) : ∀ e ∈ t, ¬ IsFileCall e ∧ chunkKey e = none := by
  refine hs.forall_mem ?_ ⟨id, rfl⟩
  intro e he
  cases he <;> exact ⟨id, rfl⟩

theorem flash_not_file {e : FlashEvent} (he : IsFlashCall e) : ¬ IsFileCall e ∧ chunkKey e = none := by
  cases he <;> exact ⟨id, rfl⟩

abbrev roundStart (m : Memory) (cnt : Nat) : List FlashEvent := [headEvent cnt, chunkEvent m cnt]

theorem roundStart_quiet (m : Memory) (cnt : Nat) :
    ∀ e ∈ roundStart m cnt, ¬ IsFileCall e ∧ ¬ Touches e := by
  rw [List.forall_mem_cons, List.forall_mem_singleton]
  exact ⟨⟨id, not_touches_note (by simp)⟩, id, not_touches_note (by simp)⟩

/-- A round that reaches `flashDataFile`: the description it uses is the one
for its chunk, and the loop keeps it. -/
theorem usesDevice_round {v : List FlashEvent} {off ptr size : Nat} {r : Int}
    (hc : Cached api s h)
    (hs : SelectRun api s (headerBus m s.pucDataCnt) (headerUnit m s.pucDataCnt)
      (headerCs m s.pucDataCnt) u (some s'))
    (hv : FileRun api (headerBus m s.pucDataCnt) s'.tDeviceDesc off ptr size v r) :
    Always (fun pre => UsesDevice api (h ++ pre)) (roundStart m s.pucDataCnt ++ (u ++ v)) ∧
      Cached api s' (h ++ (roundStart m s.pucDataCnt ++ (u ++ v))) := by
  obtain ⟨w, rfl, hw⟩ := hv.trace_eq
  have hstart := roundStart_quiet m s.pucDataCnt
  have hsel := select_not_file hs
  obtain ⟨hf, hd⟩ := filled_of_select (hc.append fun e he => (hstart e he).2)
    (headerBus_lt m s.pucDataCnt) hs
  have hkey : last chunkKey (h ++ roundStart m s.pucDataCnt ++ u) =
      some (headerBus m s.pucDataCnt, headerUnit m s.pucDataCnt, headerCs m s.pucDataCnt) := by
    rw [last_append_none _ fun e he => (hsel e he).2]
    exact last_append_some h rfl
  constructor
  · rw [always_append, always_append]
    simp only [← List.append_assoc]
    refine ⟨always_usesDevice (fun e he => (hstart e he).1) h,
      always_usesDevice (fun e he => (hsel e he).1) _, ?_⟩
    rw [always_cons, List.append_nil]
    refine ⟨⟨_, _, hkey, hf⟩, ?_⟩
    exact Always.of_forall fun e he pre => usesDevice_of_not_file (flash_not_file (hw e he)).1 _
  · right
    obtain ⟨hb, hu, hcs⟩ := hd
    rw [hb, hu, hcs, ← List.append_assoc, ← List.append_assoc]
    apply hf.append
    rw [List.forall_mem_cons]
    exact ⟨not_touches_note (by simp), fun e he => not_touches_flash (hw e he)⟩

theorem usesDevice_chunk {r : WfpState ⊕ Int} (hc : Cached api s h)
    (hr : ChunkRun api m pucDataEnd s t r) :
    Always (fun pre => UsesDevice api (h ++ pre)) t ∧ ∀ s', r = .inl s' → Cached api s' (h ++ t) := by
  cases hr with
  | done | noHeader | noData =>
    refine ⟨always_usesDevice ?_ h, by simp⟩
    simp [IsFileCall]
  | noDevice _ hs =>
    refine ⟨always_usesDevice ?_ h, by simp⟩
    rw [List.forall_mem_cons, List.forall_mem_cons]
    exact ⟨id, id, fun e he => (select_not_file hs e he).1⟩
  | flashed _ hs hv =>
    obtain ⟨ha, hc'⟩ := usesDevice_round hc hs hv
    refine ⟨ha, ?_⟩
    rintro s' hs'
    obtain rfl := Sum.inl.inj hs'
    exact hc'
  | failed _ hs hv => exact ⟨(usesDevice_round hc hs hv).1, by simp⟩

def OnBus (api : Headers) (e : FlashEvent) : Prop :=
  ∀ bus unit cs, chunkKey e = some (bus, unit, cs) → api.Supported bus

theorem onBus_of_none {e : FlashEvent} (he : chunkKey e = none) : OnBus api e := by
  intro bus unit cs hk
  rw [he] at hk
  cases hk

theorem rejects_of_onBus {r : Option Int} (ht : ∀ e ∈ t, OnBus api e) : Rejects api t r := by
  rintro pre e post bus unit cs rfl hk hbus
  exact absurd (ht e (by simp) bus unit cs hk) hbus

theorem rejects_of_not_file (ht : ∀ e ∈ t, ¬ IsFileCall e) : Rejects api t (some (-1)) := by
  rintro pre e post bus unit cs rfl - -
  exact ⟨fun x hx => ht x (by simp [hx]), rfl⟩

theorem rejects_append {r : Option Int} (hh : ∀ e ∈ h, OnBus api e) (ht : Rejects api t r) :
    Rejects api (h ++ t) r := by
  intro pre e post bus unit cs he hk hbus
  obtain hmem | ⟨pre', rfl⟩ := split_append he
  · exact absurd (hh e hmem bus unit cs hk) hbus
  · exact ht pre' e post bus unit cs rfl hk hbus

theorem Cached.lastSupported (hc : Cached api s h) : LastSupported api s := by
  apply hc.imp_right
  rintro ⟨p, e, info, q, -, he, -, -⟩
  exact he.supported

theorem onBus_round {v : List FlashEvent} {off ptr size : Nat} {r : Int} (hc : Cached api s h)
    (hs : SelectRun api s (headerBus m s.pucDataCnt) (headerUnit m s.pucDataCnt)
      (headerCs m s.pucDataCnt) u (some s'))
    (hv : FileRun api (headerBus m s.pucDataCnt) s'.tDeviceDesc off ptr size v r) :
    ∀ e ∈ roundStart m s.pucDataCnt ++ (u ++ v), OnBus api e := by
  obtain ⟨hbus, -⟩ := select_supported hs (headerBus_lt m s.pucDataCnt) hc.lastSupported
  rw [List.forall_mem_append, List.forall_mem_append, List.forall_mem_cons,
    List.forall_mem_singleton]
  refine ⟨⟨onBus_of_none rfl, ?_⟩, fun e he => onBus_of_none (select_not_file hs e he).2,
    hv.forall_mem (fun e he => onBus_of_none (flash_not_file he).2) (onBus_of_none rfl)⟩
  intro bus unit cs hk
  obtain ⟨rfl, -⟩ := Prod.mk.inj (Option.some.inj hk)
  exact hbus

theorem rejects_chunk {b : Int} (hc : Cached api s h) (hr : ChunkRun api m pucDataEnd s t (.inr b)) :
    Rejects api t (some b) := by
  cases hr with
  | done =>
    apply rejects_of_onBus
    rw [List.forall_mem_singleton]
    exact onBus_of_none rfl
  | noHeader | noData =>
    apply rejects_of_not_file
    simp [IsFileCall]
  | noDevice _ hs =>
    apply rejects_of_not_file
    rw [List.forall_mem_cons, List.forall_mem_cons]
    exact ⟨id, id, fun e he => (select_not_file hs e he).1⟩
  | failed _ hs hv => exact rejects_of_onBus (onBus_round hc hs hv)

structure Inv (api : Headers) (s : WfpState) (h : List FlashEvent) : Prop where
  cached : Cached api s h
  uses : Always (UsesDevice api) h
  onBus : ∀ e ∈ h, OnBus api e

theorem inv_step (hi : Inv api s h) (hr : ChunkRun api m pucDataEnd s t (.inl s')) :
    Inv api s' (h ++ t) := by
  obtain ⟨ha, hc⟩ := usesDevice_chunk hi.cached hr
  refine ⟨hc s' rfl, always_append.mpr ⟨hi.uses, ha⟩, ?_⟩
  rw [List.forall_mem_append]
  refine ⟨hi.onBus, ?_⟩
  cases hr with
  | flashed _ hs hv => exact onBus_round hi.cached hs hv

/-- The device description that a chunk is flashed with is always the one that
was detected for it, and a chunk on another bus is never flashed. -/
theorem usesDevice_of_run {img : WfpImage} {n : Nat} {r : Option Int}
    (hr : Runs (processWfp api m img n) t r) : Always (UsesDevice api) t ∧ Rejects api t r := by
  obtain ⟨rfl, rfl⟩ | ⟨-, -, hl⟩ := processWfp_cases hr
  · exact ⟨always_nil _, rejects_of_onBus (by simp)⟩
  have hi : Inv api (initialState api (add32 img.pucWfpImage 4)) [] :=
    ⟨.inl rfl, always_nil _, by simp⟩
  refine loop_rule (Inv api) (fun r h => Always (UsesDevice api) h ∧ Rejects api h r) ?_ ?_ ?_ hi hl
  · intro s h hi
    exact ⟨hi.uses, rejects_of_onBus hi.onBus⟩
  · intro s h t s' hi hr
    exact inv_step hi (processChunk_cases hr)
  · intro s h t b hi hr
    have hrun := processChunk_cases hr
    exact ⟨always_append.mpr ⟨hi.uses, (usesDevice_chunk hi.cached hrun).1⟩,
      rejects_append hi.onBus (rejects_chunk hi.cached hrun)⟩

/-- Two chunks for one device and a third one on a bus without a driver. -/
def mixedImage : List UInt8 :=
  [0x53, 0x57, 0x46, 0x50, 1, 0, 2, 0, 0, 0, 0, 1, 0, 0, 0, 0xaa, 1, 0, 2, 4, 0, 0, 0, 1, 0, 0, 0, 0xbb,
    7, 0, 0, 0, 0, 0, 0, 1, 0, 0, 0, 0xcc]

theorem usesDevice_of_run_mixedImage :
    let run := exec WfpGood.goodOracle (processWfp WfpGood.exampleHeaders
      (WfpGood.imageMemory mixedImage) ⟨0x40000000, mixedImage.length⟩ 4) []
    run.1.filterMap chunkKey = [(1, 0, 2), (1, 0, 2), (7, 0, 0)] ∧ run.2 = some (-1) ∧
      Always (UsesDevice WfpGood.exampleHeaders) run.1 ∧ Rejects WfpGood.exampleHeaders run.1 run.2 :=
  ⟨by decide, by decide, usesDevice_of_run (exec_runs _ _ [])⟩

end FlashApp.WfpDevice
