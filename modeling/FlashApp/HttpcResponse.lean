import FlashApp.Httpc

namespace FlashApp.Httpc

open Bytes Lwip PbufRead Search

/-- The content length that a response gives: the one in its headers, or none
if the name of that header is nowhere in the response. -/
inductive GivesLength (head body : List UInt8) : Nat → Prop
  | given {name stop len : Nat} (hname : First contentLengthName head 0 name) (hstop : First crlf head name stop)
      (hfits : stop ≤ name + 32)
      (hnumber : atoi (fill 16 ((head.drop (name + 16)).take (stop - name - 16))) = some (len : Int)) :
      GivesLength head body len
  | absent (hname : ∀ j, ¬ Occurs contentLengthName (head ++ body) j) :
      GivesLength head body contentLenInvalid

/-- A response of a server: the first line, with a text behind the status, up to
the empty line are its head. -/
structure Response where
  head : List UInt8
  body : List UInt8
  status : Nat
  contentLen : Nat
  lineEnd : Nat
  space1 : Nat
  space2 : Nat
  name : Occurs httpName head 0
  dot : head[6]? = some 46
  line : First crlf head 0 lineEnd
  first_blank : First blank head 0 space1
  second_blank : First blank head (space1 + 1) space2
  blank_lt : space2 < lineEnd
  status_fits : space2 ≤ space1 + 11
  number : atoi (fill 10 ((head.drop (space1 + 1)).take (space2 - space1 - 1))) = some (status : Int)
  status_pos : 0 < status
  status_le : status ≤ 0xFFFF
  headers_end : First (crlf ++ crlf) head 0 (head.length - 4)
  length : GivesLength head body contentLen

def Response.bytes (r : Response) : List UInt8 := r.head ++ r.body

variable {r : Response} {m : Memory} {p : List Pbuf} {xs : List UInt8}

theorem Response.head_prefix (r : Response) : r.head <+: r.bytes := List.prefix_append _ _

theorem Response.four_le (r : Response) : 4 ≤ r.head.length := by
  have h := r.headers_end.length_le
  simp only [crlf, List.cons_append, List.nil_append, List.length_cons, List.length_nil] at h
  omega

theorem Response.lineEnd_le (r : Response) : r.lineEnd + 2 ≤ r.head.length := r.line.length_le

theorem Response.seven_le (r : Response) : 7 ≤ r.lineEnd := by
  obtain ⟨hlen, hline⟩ := r.line.occurs
  have hcr := hline 0 (by decide)
  have hlf := hline 1 (by decide)
  by_contra hlt
  have hname : ∀ k < 5, r.head[k]? = httpName[k]? := by
    intro k hk
    rw [← r.name.2 k hk, Nat.zero_add]
  have hdot := r.dot
  have hcases : r.lineEnd < 5 ∨ r.lineEnd = 5 ∨ r.lineEnd = 6 := by omega
  obtain hlow | hfive | hsix := hcases
  · have hnone : ∀ k < 5, httpName[k]? ≠ crlf[0]? := by decide
    exact hnone _ hlow (by rw [← hname _ hlow, ← hcr, Nat.add_zero])
  · rw [hfive, hdot] at hlf
    exact absurd hlf (by decide)
  · rw [hsix, Nat.add_zero, hdot] at hcr
    exact absurd hcr (by decide)

theorem take_drop_of_prefix {ys : List UInt8} (h : xs <+: ys) {k n : Nat} (hn : k + n ≤ xs.length) :
    (ys.drop k).take n = (xs.drop k).take n := by
  obtain ⟨zs, rfl⟩ := h
  rw [List.drop_append_of_le_length (by omega), List.take_append_of_le_length (by rw [List.length_drop]; omega)]

theorem Response.first (hxs : xs <+: r.bytes) {pat : List UInt8} {start i : Nat}
    (h : First pat r.head start i) (hi : i + pat.length ≤ xs.length) : First pat xs start i :=
  (h.mono r.head_prefix).restrict hxs hi

theorem parseStatus_early (hp : size p < 2 ^ 16) (hxs : payload m p <+: r.bytes)
    (hlen : size p < r.lineEnd + 2) (version status : Nat) :
    httpParseResponseStatus m p version status = some (.val, version, status) := by
  have hnone : pbufMemfind m p crlf 0 = 0xFFFF := by
    apply pbufMemfind_none hp (by decide)
    intro j hj
    refine (r.line.mono r.head_prefix).not_occurs hxs ?_ hj
    rw [length_payload]
    exact hlen
  rw [httpParseResponseStatus, hnone]
  simp

theorem parseStatus_line (hp : size p < 2 ^ 16) (hxs : payload m p <+: r.bytes)
    (hlen : r.lineEnd + 2 ≤ size p) (version status : Nat) :
    ∃ version', httpParseResponseStatus m p version status = some (.ok, version', r.status) := by
  have hline := r.blank_lt
  have hblank := r.second_blank.le
  have hfits := r.status_fits
  have hsize : (payload m p).length = size p := length_payload m p
  have hend : pbufMemfind m p crlf 0 = r.lineEnd :=
    pbufMemfind_first hp (by decide) (r.first hxs r.line (hsize ▸ hlen))
  have hspace1 : pbufMemfind m p blank 0 = r.space1 := by
    apply pbufMemfind_first hp (by decide) (r.first hxs r.first_blank _)
    simp only [blank, ascii, List.map_cons, List.map_nil, List.length_cons, List.length_nil]
    omega
  have hspace2 : pbufMemfind m p blank (r.space1 + 1) = r.space2 := by
    apply pbufMemfind_first hp (by decide) (r.first hxs r.second_blank _)
    simp only [blank, ascii, List.map_cons, List.map_nil, List.length_cons, List.length_nil]
    omega
  -- the name is in front of the first blank
  have hseven := r.seven_le
  have hname : Occurs httpName (payload m p) 0 :=
    (r.name.mono r.head_prefix).restrict hxs (by rw [hsize]; simp only [httpName, ascii]; simp; omega)
  have hbyte : (payload m p)[6]? = some 46 := by
    obtain ⟨ys, hys⟩ := hxs
    have hall : r.bytes[6]? = some 46 := by
      rw [Response.bytes, List.getElem?_append_left (by have := r.lineEnd_le; omega), r.dot]
    rwa [← hys, List.getElem?_append_left (by omega)] at hall
  have hcmp : pbufMemcmp m p 0 httpName = 0 := (pbufMemcmp_eq_zero hp).mpr hname
  have hdot : pbufGetAt m p 6 = 46 := by rw [pbufGetAt_eq, hbyte]; rfl
  have hsub : sub32 (sub32 r.space2 r.space1) 1 = r.space2 - r.space1 - 1 := by
    have hinner : sub32 r.space2 r.space1 = r.space2 - r.space1 := sub32_of_le (by omega) (by omega)
    rw [hinner, sub32_of_le (by omega) (by omega)]
  have hcopy : pbufCopyPartial m p (r.space2 - r.space1 - 1) (r.space1 + 1) =
      (r.head.drop (r.space1 + 1)).take (r.space2 - r.space1 - 1) := by
    have hhead := r.lineEnd_le
    rw [pbufCopyPartial_eq, ← take_drop_of_prefix hxs (by omega),
      take_drop_of_prefix r.head_prefix (by omega)]
  have hcount : ((r.head.drop (r.space1 + 1)).take (r.space2 - r.space1 - 1)).length =
      r.space2 - r.space1 - 1 := by
    have hhead := r.lineEnd_le
    rw [List.length_take, List.length_drop]
    omega
  have hmod : (r.space2 - r.space1 - 1) % 2 ^ 16 = r.space2 - r.space1 - 1 := Nat.mod_eq_of_lt (by omega)
  have hpos := r.status_pos
  have hle := r.status_le
  have hfound : r.lineEnd ≠ 0xFFFF ∧ r.space1 ≠ 0xFFFF ∧ r.space2 ≠ 0xFFFF := by omega
  have hshort : ¬ 10 < r.space2 - r.space1 - 1 := by omega
  have hrange : (0 : Int) < r.status ∧ (r.status : Int) ≤ 0xFFFF := by omega
  simp only [httpParseResponseStatus, hend, hspace1, hspace2, hcmp, hdot, ne_eq, hfound, not_false_eq_true,
    and_self, ↓reduceIte, hsub, hmod, hcopy, hcount, hshort, r.number, Option.bind_eq_bind, Option.bind_some,
    hrange, Int.toNat_natCast]
  exact ⟨_, rfl⟩

theorem waitHeaders_early (hp : size p < 2 ^ 16) (hxs : payload m p <+: r.bytes)
    (hlen : size p < r.head.length) : httpWaitHeaders m p = some none := by
  have hfour := r.four_le
  have hnone : pbufMemfind m p (crlf ++ crlf) 0 = 0xFFFF := by
    apply pbufMemfind_none hp (by decide)
    intro j hj
    refine (r.headers_end.mono r.head_prefix).not_occurs hxs ?_ hj
    rw [length_payload]
    simp only [crlf, List.cons_append, List.nil_append, List.length_cons, List.length_nil]
    omega
  rw [httpWaitHeaders, hnone]
  rfl

theorem name_le_stop {head : List UInt8} {name stop : Nat} (hname : Occurs contentLengthName head name)
    (hstop : First crlf head name stop) : name + 16 ≤ stop := by
  by_contra hlt
  have hle := hstop.le
  obtain ⟨k, rfl⟩ := Nat.exists_eq_add_of_le hle
  have hk : k < 16 := by omega
  have hcr := hstop.occurs.2 0 (by decide)
  rw [Nat.add_zero, hname.2 k hk] at hcr
  have hnone : ∀ k < 16, contentLengthName[k]? ≠ crlf[0]? := by decide
  exact hnone k hk hcr

theorem atoi_lt {s : List UInt8} {n : Int} (h : atoi s = some n) : n < 2 ^ 31 := by
  have hcase : ∀ {s : List UInt8}, (do let k ← number s; if k < 2 ^ 31 then return (k : Int) else none) = some n →
      n < 2 ^ 31 := by
    intro s hs
    obtain ⟨k, -, hk⟩ := Option.bind_eq_some_iff.mp hs
    split_ifs at hk with hlt
    obtain rfl := Option.some.inj hk
    omega
  unfold atoi at h
  split at h
  · obtain ⟨k, -, hk⟩ := Option.bind_eq_some_iff.mp h
    split_ifs at hk with hle
    obtain rfl := Option.some.inj hk
    omega
  · exact hcase h
  · exact hcase h

theorem contentLength_given (hp : size p < 2 ^ 16) (hxs : payload m p <+: r.bytes)
    (hlen : r.head.length ≤ size p) {name stop len : Nat} (hname : First contentLengthName r.head 0 name)
    (hstop : First crlf r.head name stop) (hfits : stop ≤ name + 32)
    (hnumber : atoi (fill 16 ((r.head.drop (name + 16)).take (stop - name - 16))) = some (len : Int)) :
    contentLength m p = some len := by
  have hsize : (payload m p).length = size p := length_payload m p
  have hle := name_le_stop hname.occurs hstop
  have hin : stop + 2 ≤ r.head.length := hstop.length_le
  have hname' : name + 16 ≤ r.head.length := hname.length_le
  have hhdr : pbufMemfind m p contentLengthName 0 = name :=
    pbufMemfind_first hp (by decide) (r.first hxs hname (by rw [hsize]; exact hname'.trans hlen))
  have hend : pbufMemfind m p crlf name = stop :=
    pbufMemfind_first hp (by decide) (r.first hxs hstop (by rw [hsize]; exact hin.trans hlen))
  have hcopy : pbufCopyPartial m p (stop - name - 16) (name + 16) =
      (r.head.drop (name + 16)).take (stop - name - 16) := by
    rw [pbufCopyPartial_eq, ← take_drop_of_prefix hxs (by omega), take_drop_of_prefix r.head_prefix (by omega)]
  have hcount : ((r.head.drop (name + 16)).take (stop - name - 16)).length = stop - name - 16 := by
    rw [List.length_take, List.length_drop]
    omega
  have hmod : (stop + 2 ^ 16 - name - 16) % 2 ^ 16 = stop - name - 16 := by omega
  have hfound : name ≠ 0xFFFF ∧ stop ≠ 0xFFFF := by omega
  have hshort : ¬ 16 < stop - name - 16 := by omega
  have hrange : (0 : Int) ≤ len ∧ (len : Int) < contentLenInvalid := by
    have hint := atoi_lt hnumber
    simp only [contentLenInvalid]
    omega
  simp only [contentLength, hhdr, hend]
  rw [if_pos hfound.1, if_pos hfound.2, hmod, hcopy, hcount, if_neg hshort, if_pos rfl, hnumber,
    Option.bind_eq_bind, Option.bind_some, if_pos hrange, Int.toNat_natCast]
  rfl

theorem contentLength_absent (hp : size p < 2 ^ 16) (hxs : payload m p <+: r.bytes)
    (hname : ∀ j, ¬ Occurs contentLengthName r.bytes j) : contentLength m p = some contentLenInvalid := by
  have hnone : pbufMemfind m p contentLengthName 0 = 0xFFFF := by
    apply pbufMemfind_none hp (by decide)
    intro j _ hoccurs
    exact hname j (hoccurs.mono hxs)
  simp only [contentLength, hnone, ne_eq, not_true_eq_false, ↓reduceIte]

theorem contentLength_eq (hp : size p < 2 ^ 16) (hxs : payload m p <+: r.bytes)
    (hlen : r.head.length ≤ size p) : contentLength m p = some r.contentLen := by
  have hl := r.length
  generalize r.contentLen = len at hl
  cases hl with
  | given hname hstop hfits hnumber => exact contentLength_given hp hxs hlen hname hstop hfits hnumber
  | absent hname => exact contentLength_absent hp hxs hname

theorem waitHeaders_end (hp : size p < 2 ^ 16) (hxs : payload m p <+: r.bytes)
    (hlen : r.head.length ≤ size p) :
    httpWaitHeaders m p = some (some (r.contentLen, r.head.length)) := by
  have hfour := r.four_le
  have hsize : (payload m p).length = size p := length_payload m p
  have hend : pbufMemfind m p (crlf ++ crlf) 0 = r.head.length - 4 := by
    apply pbufMemfind_first hp (by decide) (r.first hxs r.headers_end _)
    simp only [crlf, List.cons_append, List.nil_append, List.length_cons, List.length_nil]
    omega
  have hlt : r.head.length - 4 < 0xFFFF - 2 := by omega
  have htotal : (r.head.length - 4 + 4) % 2 ^ 16 = r.head.length := by omega
  simp only [httpWaitHeaders, hend, hlt, ↓reduceIte, contentLength_eq hp hxs hlen, Option.bind_eq_bind,
    Option.bind_some, htotal]
  rfl

end FlashApp.Httpc
