import FlashApp.WfpRoundTrip

namespace FlashApp.WfpJoin

open Bytes Interaction Flasher Wfp WfpRuns WfpGood WfpRoundTrip

structure Chunk (api : Headers) where
  bus : UInt8
  unit : UInt8
  cs : UInt8
  offset : Nat
  data : List UInt8
  supported : api.Supported bus.toNat
  offset_lt : offset < 2 ^ 32

variable {api : Headers}

def Chunk.enc (c : Chunk api) : List UInt8 :=
  [c.bus, c.unit, c.cs] ++ (toLe32 c.offset ++ toLe32 c.data.length) ++ c.data

def encAll (xs : List (Chunk api)) : List UInt8 := xs.flatMap Chunk.enc

def image (xs : List (Chunk api)) : List UInt8 := [0x53, 0x57, 0x46, 0x50] ++ encAll xs

/-- All calls of the library succeed. A part of the flash that was erased is
found erased. -/
structure Succeeds (t : List FlashEvent) : Prop where
  calls : ∀ e ∈ t, ¬ Failed e
  erased : ∀ uInfo a b r msg, [eraseEvent uInfo a b .ok, checkEvent uInfo a b r msg] <:+: t → msg = 0xff

/-- `processWfp` takes the image of these chunks at the address `p`, in any
memory that holds it. -/
def Accepts (p : Nat) (xs : List (Chunk api)) : Prop :=
  ∀ m n t r, Holds m p (image xs) → xs.length < n →
    Runs (processWfp api m ⟨p, (image xs).length⟩ n) t r → Succeeds t → r = some 0

/-- There is no last chunk, or it has data. -/
def EndsWithData (xs : List (Chunk api)) : Prop := ∀ c ∈ xs.getLast?, c.data ≠ []

theorem length_enc (c : Chunk api) : c.enc.length = 11 + c.data.length := by
  simp only [Chunk.enc, List.length_append, List.length_cons, List.length_nil, length_toLe32]

theorem encAll_cons (c : Chunk api) (xs : List (Chunk api)) : encAll (c :: xs) = c.enc ++ encAll xs := rfl

theorem length_image (xs : List (Chunk api)) : (image xs).length = 4 + (encAll xs).length := by
  rw [image, List.length_append]
  rfl

theorem eleven_le_encAll {xs : List (Chunk api)} (h : xs ≠ []) : 11 ≤ (encAll xs).length := by
  cases xs with
  | nil => exact absurd rfl h
  | cons c xs =>
    rw [encAll_cons, List.length_append, length_enc]
    omega

section Library

variable {s t : List FlashEvent}

theorem Succeeds.of_infix (h : Succeeds t) (hs : s <:+: t) : Succeeds s :=
  ⟨fun e he => h.calls e (hs.subset he), fun uInfo a b r msg hi => h.erased uInfo a b r msg (hi.trans hs)⟩

theorem erase_succeeds {uInfo : List UInt8} {a b : Nat} {r : Int} (h : EraseRun uInfo a b t r)
    (ht : Succeeds t) : r = 0 := by
  cases h with
  | clean | erased => rfl
  | checkFails code msg => exact absurd ⟨code, rfl⟩ (ht.calls _ List.mem_cons_self)
  | eraseFails msg hmsg code => exact absurd ⟨code, rfl⟩ (ht.calls (eraseEvent uInfo a b (.error code)) (by simp))
  | notClean msg hmsg r msg' hmsg' =>
    refine absurd (ht.erased uInfo a b r msg' ?_) hmsg'
    exact (List.suffix_cons _ _).isInfix

theorem status_of_succeeds {e : FlashEvent} {r : ConsoleappResult} (he : result e = some r) (hmem : e ∈ t)
    (ht : Succeeds t) : status r = 0 := by
  cases r with
  | ok => rfl
  | error code => exact absurd ⟨code, he⟩ (ht.calls e hmem)

theorem file_succeeds {bus off ptr size : Nat} {desc : DeviceDescription} {r : Int}
    (h : FileRun api bus desc off ptr size t r) (ht : Succeeds t) (hbus : api.Supported bus) : r = 0 := by
  cases h with
  | spi hb hspi =>
    cases hspi with
    | noArea code a b =>
      exact absurd ⟨code, rfl⟩ (ht.calls (areaEvent desc.uInfo off size (.error code) a b) (by simp))
    | @notErased a b u he =>
      have hinfix : u <:+: fileEvent bus desc off ptr size :: areaEvent desc.uInfo off size .ok a b :: u :=
        ((List.suffix_cons _ _).trans (List.suffix_cons _ _)).isInfix
      exact absurd (erase_succeeds he (ht.of_infix hinfix)) (by decide)
    | programmed a b he r =>
      exact status_of_succeeds (e := programEvent desc.uInfo off size ptr r) rfl (by simp) ht
  | sdio hb r => exact status_of_succeeds (e := ⟨.sdioWrite desc off size ptr, r⟩) rfl (by simp) ht
  | other hb => exact absurd hbus hb

theorem select_succeeds {st : WfpState} {bus unit cs : Nat} {r : Option WfpState}
    (h : SelectRun api st bus unit cs t r) (ht : Succeeds t) (hbus : api.Supported bus) : r ≠ none := by
  cases h with
  | reuse | detected => simp
  | failed hs hd =>
    cases hd with
    | @missing e code info he =>
      refine absurd ⟨code, ?_⟩ (ht.calls e (by simp))
      cases he <;> rfl
    | other hb => exact absurd hbus hb

theorem chunk_succeeds {m : Memory} {pucDataEnd : Nat} {st : WfpState} {r : WfpState ⊕ Int}
    (h : ChunkRun api m pucDataEnd st t r) (ht : Succeeds t) (hfits : ChunkFits m pucDataEnd st.pucDataCnt)
    (hbus : api.Supported (headerBus m st.pucDataCnt)) :
    ∃ st', r = .inl st' ∧ st'.pucDataCnt = nextCnt m st.pucDataCnt ∧ st'.iResult = 0 := by
  cases h with
  | done h => exact absurd hfits.inside h
  | noHeader _ h => exact absurd hfits.header (by omega)
  | noData _ _ h => exact absurd hfits.data (by unfold nextCnt at h; omega)
  | @noDevice _ u hu =>
    have hinfix : u <:+: headEvent st.pucDataCnt :: chunkEvent m st.pucDataCnt :: u :=
      ((List.suffix_cons _ _).trans (List.suffix_cons _ _)).isInfix
    exact absurd rfl (select_succeeds hu (ht.of_infix hinfix) hbus)
  | flashed => exact ⟨_, rfl, rfl, rfl⟩
  | @failed _ u v _ _ hv =>
    have hinfix : v <:+: headEvent st.pucDataCnt :: chunkEvent m st.pucDataCnt :: (u ++ v) :=
      ⟨headEvent st.pucDataCnt :: chunkEvent m st.pucDataCnt :: u, [], by simp⟩
    exact absurd (file_succeeds hv (ht.of_infix hinfix) hbus) (by decide)

end Library

section Loop

variable {m : Memory} {a n : Nat} {st : WfpState} {t : List FlashEvent} {r : Option Int}

theorem loop_chunk_succeeds (c : Chunk api) {rest : Nat} (ha : st.pucDataCnt = a)
    (hlen : 12 ≤ c.enc.length + rest) (hstop : a + c.enc.length + rest + 12 ≤ 2 ^ 32) (hm : Holds m a c.enc)
    (hr : Runs (loop (processChunk api m (a + c.enc.length + rest)) (n + 1) st) t r) (ht : Succeeds t) :
    ∃ st' t', st'.pucDataCnt = a + c.enc.length ∧ st'.iResult = 0 ∧ Succeeds t' ∧
      Runs (loop (processChunk api m (a + c.enc.length + rest)) n st') t' r := by
  subst a
  rw [Chunk.enc, holds_append] at hm
  rw [length_enc] at *
  obtain ⟨hbus, -, hsize⟩ := fields_of_holds (by omega) c.offset_lt (by omega) hm.1
  have h11 : add32 st.pucDataCnt 11 = st.pucDataCnt + 11 := add32_of_lt (by omega)
  have hnext : nextCnt m st.pucDataCnt = st.pucDataCnt + 11 + c.data.length := by
    rw [nextCnt, h11, hsize, add32_of_lt (by omega)]
  have hfits : ChunkFits m (st.pucDataCnt + (11 + c.data.length) + rest) st.pucDataCnt :=
    ⟨by omega, by rw [add32_of_lt (by omega)]; omega, by rw [← nextCnt, hnext]; omega⟩
  have hsup : api.Supported (headerBus m st.pucDataCnt) := by
    rw [hbus]
    exact c.supported
  rcases runs_loop_succ.mp hr with ⟨st', t₁, t₂, rfl, h₁, h₂⟩ | ⟨b, rfl, hb⟩
  · obtain ⟨st'', hinl, hcnt, hres⟩ := chunk_succeeds (processChunk_cases h₁)
      (ht.of_infix (List.prefix_append _ _).isInfix) hfits hsup
    obtain rfl := Sum.inl.inj hinl
    exact ⟨st', t₂, by rw [hcnt, hnext]; omega, hres, ht.of_infix (List.suffix_append _ _).isInfix, h₂⟩
  · obtain ⟨st', hinl, -⟩ := chunk_succeeds (processChunk_cases hb) ht hfits hsup
    cases hinl

theorem loop_short {k : Nat} (ha : st.pucDataCnt = a) (hk : 0 < k) (hk12 : k < 12) (hstop : a + k + 12 ≤ 2 ^ 32)
    (hr : Runs (loop (processChunk api m (a + k)) (n + 1) st) t r) : r = some (-1) := by
  subst a
  have h12 : add32 st.pucDataCnt 12 = st.pucDataCnt + 12 := add32_of_lt (by omega)
  have hleave : ∀ {t x}, ChunkRun api m (st.pucDataCnt + k) st t x → x = .inr (-1) := by
    intro t x hx
    cases hx with
    | done h => exact absurd h (by omega)
    | noHeader => rfl
    | noData _ h => exact absurd h (by omega)
    | noDevice h | flashed h | failed h => exact absurd h.header (by omega)
  rcases runs_loop_succ.mp hr with ⟨st', t₁, t₂, rfl, h₁, -⟩ | ⟨b, rfl, hb⟩
  · cases hleave (processChunk_cases h₁)
  · exact congrArg some (Sum.inr.inj (hleave (processChunk_cases hb)))

theorem endsWithData_cons {c : Chunk api} {xs : List (Chunk api)} (h : xs ≠ []) :
    EndsWithData (c :: xs) ↔ EndsWithData xs := by
  cases xs with
  | nil => exact absurd rfl h
  | cons d xs => rw [EndsWithData, EndsWithData, List.getLast?_cons_cons]

theorem endsWithData_singleton {c : Chunk api} : EndsWithData [c] ↔ c.data ≠ [] := by
  simp [EndsWithData]

/-- The chunk loop over a whole image, by induction on the chunks. Only the last
chunk can have less than twelve bytes left. -/
theorem loop_all (xs : List (Chunk api)) (ha : st.pucDataCnt = a) (hres : st.iResult = 0)
    (hstop : a + (encAll xs).length + 12 ≤ 2 ^ 32) (hm : Holds m a (encAll xs)) (hn : xs.length < n)
    (hr : Runs (loop (processChunk api m (a + (encAll xs).length)) n st) t r) (ht : Succeeds t) :
    (EndsWithData xs → r = some 0) ∧ (¬ EndsWithData xs → r = some (-1)) := by
  obtain ⟨n, rfl⟩ : ∃ n', n = n' + 1 := ⟨n - 1, by omega⟩
  induction xs generalizing a n st t with
  | nil =>
    subst a
    exact ⟨fun _ => (loop_end hres hr).1, fun h => absurd (fun c hc => by simp at hc) h⟩
  | cons c xs ih =>
    rw [encAll_cons, List.length_append, ← Nat.add_assoc] at hr hstop
    rw [encAll_cons, holds_append] at hm
    rw [List.length_cons] at hn
    by_cases hlen : 12 ≤ c.enc.length + (encAll xs).length
    · obtain ⟨st', t', hcnt, hres', ht', hr'⟩ := loop_chunk_succeeds c ha hlen hstop hm.1 hr ht
      obtain ⟨n, rfl⟩ : ∃ n', n = n' + 1 := ⟨n - 1, by omega⟩
      have hrest := ih hcnt hres' hstop hm.2 ht' n (by omega) hr'
      by_cases hxs : xs = []
      · subst hxs
        have hdata : c.data ≠ [] := by
          intro hno
          rw [length_enc, hno] at hlen
          simp [encAll] at hlen
        rw [endsWithData_singleton]
        exact ⟨fun _ => hrest.1 (fun c hc => by simp at hc), fun h => absurd hdata h⟩
      · rwa [endsWithData_cons hxs]
    · rw [length_enc] at hlen
      have hxs : xs = [] := by
        by_contra hne
        have hge := eleven_le_encAll hne
        omega
      subst hxs
      have hdata : c.data = [] := List.eq_nil_of_length_eq_zero (by omega)
      have henc : c.enc.length + (encAll ([] : List (Chunk api))).length = 11 := by
        rw [length_enc, hdata]
        rfl
      rw [Nat.add_assoc, henc] at hr
      rw [endsWithData_singleton]
      exact ⟨fun h => absurd hdata h, fun _ => loop_short ha (by omega) (by omega) (by omega) hr⟩

end Loop

theorem hasMagic_of_image {m : Memory} {p : Nat} {xs : List (Chunk api)} (hp : p + 4 ≤ 2 ^ 32)
    (h : Holds m p (image xs)) : hasMagic m p := by
  simp only [image, holds_append, holds_cons, Nat.add_assoc, Nat.reduceAdd] at h
  obtain ⟨⟨h0, h1, h2, h3, -⟩, -⟩ := h
  refine ⟨h0, ?_, ?_, ?_⟩
  · rwa [add32_of_lt (by omega)]
  · rwa [add32_of_lt (by omega)]
  · rwa [add32_of_lt (by omega)]

/-- An image is taken if it does not end with a chunk without data, and refused
if it does. -/
theorem run_image (xs : List (Chunk api)) {m : Memory} {p n : Nat} {t : List FlashEvent} {r : Option Int}
    (hp : p + (image xs).length + 12 ≤ 2 ^ 32) (hm : Holds m p (image xs)) (hn : xs.length < n)
    (hr : Runs (processWfp api m ⟨p, (image xs).length⟩ n) t r) (ht : Succeeds t) :
    (EndsWithData xs → r = some 0) ∧ (¬ EndsWithData xs → r = some (-1)) := by
  rw [length_image] at hp hr
  have hmagic := hasMagic_of_image (by omega) hm
  have hstart : add32 p 4 = p + 4 := add32_of_lt (by omega)
  have hstop : add32 p (4 + (encAll xs).length) = p + 4 + (encAll xs).length := by
    rw [add32_of_lt (by omega), Nat.add_assoc]
  have hsize : ¬ p + 4 + (encAll xs).length < p + 4 := by omega
  simp only [processWfp, hstart, hstop, gt_iff_lt, hsize, hmagic, ↓reduceIte] at hr
  rw [image, holds_append] at hm
  have hend : p + 4 + (encAll xs).length + 12 ≤ 2 ^ 32 := by omega
  have hstate : (initialState api (p + 4)).pucDataCnt = p + 4 := rfl
  exact loop_all xs hstate rfl hend hm.2 hn hr ht

theorem succeeds_goodOracle {α : Type} (prog : FlashProg α) : Succeeds (exec goodOracle prog []).1 := by
  have hgood := exec_good prog
  refine ⟨?_, ?_⟩
  · rintro ⟨c, r⟩ he
    have hg := hgood _ he
    cases c with
    | spiIsErased =>
      obtain rfl : r = (.ok, 0xff) := hg
      simp [Failed, result]
    | _ => exact hg
  · intro uInfo a b r msg hi
    have hg : Good (checkEvent uInfo a b r msg) := hgood _ (hi.subset (by simp))
    exact (good_spiIsErased.mp hg).2

theorem accepts_iff (xs : List (Chunk api)) {p : Nat} (hp : p + (image xs).length + 12 ≤ 2 ^ 32) :
    Accepts p xs ↔ EndsWithData xs := by
  constructor
  · intro hacc
    by_contra hno
    have hm := holds_store (fun _ => 0) p (image xs)
    have hrun := exec_runs goodOracle (processWfp api (store (fun _ => 0) p (image xs))
      ⟨p, (image xs).length⟩ (xs.length + 1)) []
    have hzero := hacc _ _ _ _ hm (Nat.lt_succ_self _) hrun (succeeds_goodOracle _)
    have hminus := (run_image xs hp hm (Nat.lt_succ_self _) hrun (succeeds_goodOracle _)).2 hno
    rw [hzero] at hminus
    cases hminus
  · intro hdata m n t r hm hn hr ht
    exact (run_image xs hp hm hn hr ht).1 hdata

/-- Whether chunks are acceptable does not depend on what comes behind them. -/
structure PositionFree (p : Nat) (xs ys : List (Chunk api)) : Prop where
  cut : Accepts p (xs ++ ys) → Accepts p xs
  join : Accepts p xs → Accepts p ys → Accepts p (xs ++ ys)

theorem endsWithData_append {xs ys : List (Chunk api)} (h : ys ≠ []) :
    EndsWithData (xs ++ ys) ↔ EndsWithData ys := by
  rw [EndsWithData, EndsWithData, List.getLast?_append_of_ne_nil _ h]

theorem length_image_append (xs ys : List (Chunk api)) :
    (image (xs ++ ys)).length = (image xs).length + (encAll ys).length := by
  rw [length_image, length_image, encAll, encAll, encAll, List.flatMap_append, List.length_append, Nat.add_assoc]

/-- Two lists of chunks can be cut apart exactly if the first one does not end
with a chunk without data, or the second one adds nothing that repairs it.
Accepted ones can always be joined. -/
theorem positionFree_iff (xs ys : List (Chunk api)) {p : Nat} (hp : p + (image (xs ++ ys)).length + 12 ≤ 2 ^ 32) :
    PositionFree p xs ys ↔
      (∀ c ∈ xs.getLast?, c.data ≠ []) ∨ ys = [] ∨ ∃ c ∈ ys.getLast?, c.data = [] := by
  have hlen := length_image_append xs ys
  have hmagic := length_image xs
  have hxs := accepts_iff xs (p := p) (by omega)
  have hys := accepts_iff ys (p := p) (by rw [length_image]; omega)
  have hall := accepts_iff (xs ++ ys) hp
  by_cases hnil : ys = []
  · subst hnil
    refine iff_of_true ⟨?_, ?_⟩ (.inr (.inl rfl))
    · rw [List.append_nil]
      exact id
    · rw [List.append_nil]
      exact fun h _ => h
  · rw [endsWithData_append hnil] at hall
    have hjoin : Accepts p xs → Accepts p ys → Accepts p (xs ++ ys) := by
      intro _ hy
      exact hall.mpr (hys.mp hy)
    have hempty : (∃ c ∈ ys.getLast?, c.data = []) ↔ ¬ EndsWithData ys := by simp [EndsWithData]
    rw [hempty]
    constructor
    · rintro ⟨hcut, -⟩
      by_cases hy : EndsWithData ys
      · exact .inl (hxs.mp (hcut (hall.mpr hy)))
      · exact .inr (.inr hy)
    · rintro (hx | hno | hy)
      · exact ⟨fun _ => hxs.mpr hx, hjoin⟩
      · exact absurd hno hnil
      · exact ⟨fun h => absurd (hall.mp h) hy, hjoin⟩

theorem spiChunk_supported : exampleHeaders.Supported (1 : UInt8).toNat := by decide

theorem spiChunk_offset : 0x1000 < 2 ^ 32 := by decide

def spiChunk (data : List UInt8) : Chunk exampleHeaders :=
  ⟨1, 0, 0, 0x1000, data, spiChunk_supported, spiChunk_offset⟩

theorem positionFree_iff_spiChunk : PositionFree 0x40000000 [spiChunk [0xaa]] [spiChunk [0xbb]] :=
  (positionFree_iff _ _ (by decide)).mpr (.inl (by decide))

/-- A chunk without data is taken in front of another one, but not at the end. -/
theorem empty_chunk_refused_at_end :
    ¬ ∀ (api : Headers) (xs ys : List (Chunk api)) (p : Nat),
      p + (image (xs ++ ys)).length + 12 ≤ 2 ^ 32 → PositionFree p xs ys := by
  intro h
  have hcut := (h exampleHeaders [spiChunk []] [spiChunk [0xaa]] 0x40000000 (by decide)).cut
  have hacc := (accepts_iff ([spiChunk []] ++ [spiChunk [0xaa]]) (p := 0x40000000) (by decide)).mpr
    (by simp [EndsWithData, spiChunk])
  have hdata := (accepts_iff [spiChunk []] (p := 0x40000000) (by decide)).mp (hcut hacc)
  exact hdata (spiChunk []) rfl rfl

end FlashApp.WfpJoin
