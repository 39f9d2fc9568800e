import SolidDB.Foundation.BlockHeap
import SolidDB.Uti.Va

/-!
# Buffered v-attributes

A buffer of 16 to 253 bytes holds a short v-attribute itself. A longer one is in a block of the
heap: then the first byte of the buffer is 253, and the pointer of the block is at byte 8. The size
of a buffer is its length, and a pointer to data is the list of cells from it on.
-/

namespace SolidDB.Bufva

open BlockHeap

/-- `BUFVA_MINBUFSIZE`, for pointers of eight bytes -/
def bufvaMinbufsize : ℕ := 2 * 8

def bufvaMaxbufsize : ℕ := vaLongvalimit - 1

def dynvaMinlen : ℕ := 100

def vaMaxindex : ℕ := 2 ^ 32 - 5

/-- A sum of type `va_index_t` -/
def vaIndex (n : ℕ) : ℕ := n % 2 ^ 32

theorem vaIndex_of_lt {n : ℕ} (h : n < 2 ^ 32) : vaIndex n = n := Nat.mod_eq_of_lt h

def vaNull : List Cell := [.byte 0]

def memcpy (dest : List Cell) (off : ℕ) (src : List Cell) (n : ℕ) : Option (List Cell) := do
  let cells ← load src 0 n
  store dest off cells

/-! ## V-attributes in memory -/

/-- `VA_GETDATA`: where the data begins, and its length. -/
def vaGetdata (va : List Cell) : Option (ℕ × ℕ) := do
  let c ← loadByte va 0
  if byteLenTest c.toNat then
    some (1, c.toNat)
  else
    let len ← loadBytes va 0 5
    some (5, fourByteLen len)

def vaNetlen (va : List Cell) : Option ℕ := do
  let c ← loadByte va 0
  if byteLenTest c.toNat then
    some c.toNat
  else
    let len ← loadBytes va 0 5
    some (fourByteLen len)

def vaGrosslen (va : List Cell) : Option ℕ := do
  let c ← loadByte va 0
  if byteLenTest c.toNat then
    some (c.toNat + 1)
  else
    let len ← loadBytes va 0 5
    some (vaIndex (fourByteLen len + 5))

/-- `va_setdata`; without data only the length is written. -/
def vaSetdata (mem : List Cell) (off : ℕ) (data : Option (List Cell)) (datalen : ℕ) :
    Option (List Cell) := do
  let mem ← store mem off (bytes (vaSetLen datalen))
  match data with
  | none => some mem
  | some data => memcpy mem (off + vaLenLen datalen) data datalen

/-- The memory of a dynva of `valen` bytes; no dynva is the null pointer. -/
def dynvaAlloc (dynva : Option ℕ) (valen : ℕ) (h : Heap) : Option (ℕ × Heap) :=
  match dynva with
  | none => some (h.alloc (max dynvaMinlen valen))
  | some p => h.realloc p (max dynvaMinlen valen)

def dynvaSetdata (dynva : Option ℕ) (data : List Cell) (datalen : ℕ) (h : Heap) :
    Option (ℕ × Heap) := do
  if datalen ≤ vaMaxindex then
    let (p, h) ← dynvaAlloc dynva (vaIndex (vaLenLen datalen + datalen)) h
    let h ← h.modify p fun mem => vaSetdata mem 0 (some data) datalen
    some (p, h)
  else
    none

def dynvaSetdataandnull (dynva : Option ℕ) (data : List Cell) (datalen : ℕ) (h : Heap) :
    Option (ℕ × Heap) := do
  let resultdatalen := vaIndex (datalen + 1)
  if resultdatalen ≤ vaMaxindex then
    let (p, h) ← dynvaAlloc dynva (vaIndex (vaLenLen resultdatalen + resultdatalen)) h
    let h ← h.modify p fun mem => do
      let mem ← store mem 0 (bytes (vaSetLen resultdatalen))
      let mem ← memcpy mem (vaLenLen resultdatalen) data datalen
      store mem (vaLenLen resultdatalen + datalen) [.byte 0]
    some (p, h)
  else
    none

/-! ## The buffer -/

def bufva1bytenetlen (buf : List Cell) : Option ℕ := (loadByte buf 0).map UInt8.toNat

def bufva1bytegrosslen (buf : List Cell) : Option ℕ := (bufva1bytenetlen buf).map (· + 1)

def bufvaGetDynamicVa (buf : List Cell) : Option ℕ := loadPointer buf 8

def bufvaSetDynamicVa (buf : List Cell) (va : ℕ) : Option (List Cell) := do
  let buf ← store buf 0 [.byte (UInt8.ofNat (vaLongvalimit - 1))]
  store buf 8 (pointer va)

/-- `bufva_init`, `bufvtpl_init` -/
def bufvaInit (buf : List Cell) : Option (List Cell) := store buf 0 [.byte 0]

def bufvaFree (buf : List Cell) (bufsize : ℕ) (h : Heap) : Option Heap := do
  let grosslen ← bufva1bytegrosslen buf
  if grosslen > bufsize then
    let p ← bufvaGetDynamicVa buf
    h.free p
  else
    some h

/-- `bufva_done`, `bufvtpl_done` -/
def bufvaDone (buf : List Cell) (bufsize : ℕ) (h : Heap) : Option (List Cell × Heap) := do
  let h ← bufvaFree buf bufsize h
  let buf ← store buf 0 [.byte 0]
  some (buf, h)

/-- `bufva_setva`, `bufvtpl_setvtpl`; `none` is the null pointer. -/
def bufvaSetva (buf : List Cell) (bufsize : ℕ) (va : Option (List Cell)) (h : Heap) :
    Option (List Cell × Heap) := do
  let va := va.getD vaNull
  let newGrosslen ← vaGrosslen va
  let grosslen ← bufva1bytegrosslen buf
  if grosslen > bufsize then
    let p ← bufvaGetDynamicVa buf
    if newGrosslen > bufsize then
      let (p, h) ← h.realloc p newGrosslen
      let h ← h.modify p fun mem => memcpy mem 0 va newGrosslen
      let buf ← bufvaSetDynamicVa buf p
      some (buf, h)
    else
      let h ← h.free p
      let buf ← memcpy buf 0 va newGrosslen
      some (buf, h)
  else
    if newGrosslen > bufsize then
      let (p, h) := h.alloc newGrosslen
      let h ← h.modify p fun mem => memcpy mem 0 va newGrosslen
      let buf ← bufvaSetDynamicVa buf p
      some (buf, h)
    else
      let buf ← memcpy buf 0 va newGrosslen
      some (buf, h)

/-- `bufva_move`, `bufvtpl_move`: the destination and the source. The block of the destination is
freed, but its first byte is not reset. -/
def bufvaMove (destbuf : List Cell) (destbufsize : ℕ) (srcbuf : List Cell) (srcbufsize : ℕ)
    (h : Heap) : Option (List Cell × List Cell × Heap) := do
  let h ← bufvaFree destbuf destbufsize h
  let ntocopy ← bufva1bytegrosslen srcbuf
  let (destbuf, h) ←
    if ntocopy > srcbufsize then do
      let p ← bufvaGetDynamicVa srcbuf
      let destbuf ← bufvaSetDynamicVa destbuf p
      some (destbuf, h)
    else if ntocopy > destbufsize then
      bufvaSetva destbuf destbufsize (some srcbuf) h
    else do
      let destbuf ← memcpy destbuf 0 srcbuf ntocopy
      some (destbuf, h)
  let srcbuf ← store srcbuf 0 [.byte 0]
  some (destbuf, srcbuf, h)

/-- `bufva_setdata`, `bufvtpl_setdata` -/
def bufvaSetdata (buf : List Cell) (bufsize : ℕ) (data : List Cell) (datalen : ℕ) (h : Heap) :
    Option (List Cell × Heap) := do
  let data := if datalen = 0 then vaNull else data
  let newGrosslen := datalen + 1
  let grosslen ← bufva1bytegrosslen buf
  if grosslen > bufsize then
    let p ← bufvaGetDynamicVa buf
    if newGrosslen > bufsize then
      let (p, h) ← dynvaSetdata (some p) data datalen h
      let buf ← bufvaSetDynamicVa buf p
      some (buf, h)
    else
      let h ← h.free p
      let buf ← vaSetdata buf 0 (some data) datalen
      some (buf, h)
  else
    if newGrosslen > bufsize then
      let (p, h) ← dynvaSetdata none data datalen h
      let buf ← bufvaSetDynamicVa buf p
      some (buf, h)
    else
      let buf ← vaSetdata buf 0 (some data) datalen
      some (buf, h)

/-- `bufva_getva`: the cells from the v-attribute on. -/
def bufvaGetva (buf : List Cell) (bufsize : ℕ) (h : Heap) : Option (List Cell) := do
  let grosslen ← bufva1bytegrosslen buf
  if grosslen > bufsize then
    let p ← bufvaGetDynamicVa buf
    h.blocks p
  else
    some buf

/-! ## Appending -/

/-- The block of a longer v-attribute, with its length and the old data in place. -/
def vaGrow (mem : List Cell) (oldNetlen newNetlen : ℕ) : Option (List Cell) := do
  let mem ←
    if vaLenLen oldNetlen < vaLenLen newNetlen then
      memmove mem (vaLenLen newNetlen) (vaLenLen oldNetlen) oldNetlen
    else
      some mem
  vaSetdata mem 0 none newNetlen

/-- The steps that appending has in common. `app` writes `increase` bytes at an offset. -/
def bufvaApp (buf : List Cell) (bufsize increase : ℕ)
    (app : List Cell → ℕ → Option (List Cell)) (h : Heap) : Option (List Cell × Heap) := do
  let oldNetlen ← bufva1bytenetlen buf
  if oldNetlen ≥ bufsize then
    let p ← bufvaGetDynamicVa buf
    let oldNetlen ← (h.blocks p).bind vaNetlen
    let newNetlen := increase + oldNetlen
    let (p, h) ← h.realloc p (vaLenLen newNetlen + newNetlen)
    let h ← h.modify p fun mem => do
      let mem ← vaGrow mem oldNetlen newNetlen
      app mem (vaLenLen newNetlen + oldNetlen)
    let buf ← bufvaSetDynamicVa buf p
    some (buf, h)
  else
    let newNetlen := increase + oldNetlen
    if newNetlen ≥ bufsize then
      let (p, h) := h.alloc (newNetlen + vaLenLen newNetlen)
      let h ← h.modify p fun mem => do
        let mem ← vaSetdata mem 0 none newNetlen
        let mem ← memcpy mem (vaLenLen newNetlen) (buf.drop 1) oldNetlen
        app mem (vaLenLen newNetlen + oldNetlen)
      let buf ← bufvaSetDynamicVa buf p
      some (buf, h)
    else
      let buf ← app buf (1 + oldNetlen)
      let buf ← store buf 0 [.byte (UInt8.ofNat newNetlen)]
      some (buf, h)

def bufvaAppdata (buf : List Cell) (bufsize : ℕ) (data : List Cell) (datalen : ℕ) (h : Heap) :
    Option (List Cell × Heap) :=
  bufvaApp buf bufsize datalen (fun mem off => memcpy mem off data datalen) h

def bufvaAppva (buf : List Cell) (bufsize : ℕ) (va : List Cell) (h : Heap) :
    Option (List Cell × Heap) := do
  let (i, datalen) ← vaGetdata va
  bufvaAppdata buf bufsize (va.drop i) datalen h

def bufvtplAppva (buf : List Cell) (bufsize : ℕ) (va : List Cell) (h : Heap) :
    Option (List Cell × Heap) := do
  let increase ← vaGrosslen va
  bufvaApp buf bufsize increase (fun mem off => memcpy mem off va increase) h

def bufvtplAppdataAsVa (buf : List Cell) (bufsize : ℕ) (data : List Cell) (datalen : ℕ)
    (h : Heap) : Option (List Cell × Heap) :=
  bufvaApp buf bufsize (datalen + if byteLenTest datalen then 1 else 5)
    (fun mem off => vaSetdata mem off (some data) datalen) h

/-- A v-attribute without its last byte, and a zero byte in its place. -/
def appIncremented (dynva : List Cell) (increase : ℕ) (mem : List Cell) (off : ℕ) :
    Option (List Cell) := do
  let mem ← memcpy mem off dynva (increase - 1)
  store mem (off + (increase - 1)) [.byte 0]

/-- The buffer and the v-attribute. Its length is changed in place, unless the format of the length
would change, and restored at the end. -/
def bufvtplAppvawithincrement (buf : List Cell) (bufsize : ℕ) (va : List Cell) (h : Heap) :
    Option (List Cell × List Cell × Heap) := do
  let (i, vaDatalen) ← vaGetdata va
  if byteLenTest vaDatalen && !byteLenTest (vaDatalen + 1) then
    let (p, h) ← dynvaSetdataandnull none (va.drop i) vaDatalen h
    let dynva ← h.blocks p
    let increase ← vaGrosslen dynva
    let (buf, h) ← bufvaApp buf bufsize increase (appIncremented dynva increase) h
    let h ← h.free p
    some (buf, va, h)
  else
    let dynva ← vaSetdata va 0 none (vaDatalen + 1)
    let increase ← vaGrosslen dynva
    let (buf, h) ← bufvaApp buf bufsize increase (appIncremented dynva increase) h
    let va ← vaSetdata dynva 0 none vaDatalen
    some (buf, va, h)

end SolidDB.Bufva
