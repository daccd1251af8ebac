import FlashApp.Bytes

namespace FlashApp.Lwip

open Bytes

inductive ErrT where
  | ok
  | mem
  | buf
  | timeout
  | rte
  | inprogress
  | val
  | wouldblock
  | use
  | already
  | isconn
  | conn
  | netif
  | abrt
  | rst
  | clsd
  | arg
  deriving DecidableEq

inductive HttpcResult where
  | ok
  | errUnknown
  | errConnect
  | errHostname
  | errClosed
  | errTimeout
  | errSvrResp
  | errMem
  | localAbort
  | errContentLen
  deriving DecidableEq

/-- One element of a pbuf chain. Its payload lies in the pbuf memory, which
does not reach up to the end of the address space. -/
structure Pbuf where
  payload : Nat
  len : Nat
  len_lt : len < 2 ^ 16
  fits : payload + len + 8 ≤ 2 ^ 32

structure PbufChain where
  head : Pbuf
  next : List Pbuf

def PbufChain.elements (p : PbufChain) : List Pbuf := p.head :: p.next

def size (bs : List Pbuf) : Nat := (bs.map Pbuf.len).sum

/-- The field `tot_len` of the first element. -/
def PbufChain.totLen (p : PbufChain) : Nat := size p.elements % 2 ^ 16

@[simp] theorem size_nil : size [] = 0 := rfl

@[simp] theorem size_cons (b : Pbuf) (bs : List Pbuf) : size (b :: bs) = b.len + size bs := rfl

/-- The data in the elements of a chain. -/
def payload (contents : Memory) (bs : List Pbuf) : List UInt8 :=
  bs.flatMap fun b => slice contents b.payload b.len

theorem length_payload (contents : Memory) (bs : List Pbuf) : (payload contents bs).length = size bs := by
  induction bs with
  | nil => rfl
  | cons b bs ih =>
    rw [payload, List.flatMap_cons, List.length_append, length_slice, size_cons, ← ih]
    rfl

end FlashApp.Lwip
