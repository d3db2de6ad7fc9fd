import PgJitter.Like
import PgJitter.Lib.LinearProbing

/-!
# The JSON text reader

`yyjson_read_pg_text_type_opts_err_ex` and the scanners behind it, as the patch to yyjson adds them
(`patches/yyjson-pg-jitter.patch`). The cursor is the list of the bytes from it to the end, so that a read at the end is a read
past the given length: it ends the run (`overrun`), as a loop that does not end does (`diverges`). An error is kept with its
position, as far as it is the first one.

What is allocated is numbered, and what is freed is in a log; the contents stand where the pointer to them is kept. `allocOk`
says which allocations succeed.
-/

namespace PgJitter

/-! ## The reader -/

/-- `yyjson_pg_text_type`. -/
inductive PgTextType where
  | invalid
  | object
  | array
  | scalar
  deriving DecidableEq, Repr

/-- The `YYJSON_READ_ERROR_` codes that are used. -/
inductive ReadCode where
  | invalidParameter
  | memoryAllocation
  | invalidString
  | depth
  | jsonStructure
  | unexpectedContent
  deriving DecidableEq, Repr

/-- `yyjson_read_err`, when its code is not that of success. -/
structure ReadErr where
  code : ReadCode
  msg : String
  pos : Nat
  deriving DecidableEq, Repr

/-- `MSG_MALLOC` -/
def msgMalloc : String := "memory allocation failed"

/-- `MSG_DEPTH` -/
def msgDepth : String := "depth limit exceeded"

/-- `MSG_CHAR` -/
def msgChar : String := "unexpected character"

/-- `MSG_GARBAGE` -/
def msgGarbage : String := "unexpected content after document"

/-- What is asked of the reader, and the length of the text. -/
structure PgTextOptions where
  /-- `YYJSON_PG_TEXT_DEPTH_LIMIT` -/
  depthLimit : Nat
  checkUniqueKeys : Bool
  validateUnicode : Option (Nat → Bool)
  allocOk : Nat → Bool
  len : Nat

/-- How a run ends that does not return. -/
inductive PgTextHalt where
  | overrun
  | diverges
  deriving DecidableEq, Repr

/-- What the allocator has given out so far, and what it got back. -/
structure KeyHeap where
  next : Nat
  freed : List Nat
  deriving DecidableEq, Repr

/-- The part of `yyjson_pg_reader` that changes. -/
structure PgReader where
  cur : List Byte
  err : Option ReadErr
  heap : KeyHeap
  deriving DecidableEq, Repr

/-- `USIZE_MAX` -/
def usizeMax : Nat := 2 ^ 64 - 1

/-- `sizeof(yyjson_pg_key)`, and of `yyjson_pg_key_slot`. -/
def sizeofPgKey : Nat := 16

/-- `YYJSON_PG_TEXT_KEY_HASH_THRESHOLD` -/
def keyHashThreshold : Nat := 32

namespace PgReader

/-- `yyjson_pg_text_set_error_at`: only the first error is kept. -/
def setErrorAt (r : PgReader) (code : ReadCode) (msg : String) (pos : Nat) : PgReader :=
  if r.err.isNone then { r with err := some ⟨code, msg, pos⟩ } else r

/-- `yyjson_pg_text_set_error` -/
def setError (o : PgTextOptions) (r : PgReader) (code : ReadCode) (msg : String) : PgReader :=
  r.setErrorAt code msg (o.len - r.cur.length)

/-- `alc.malloc` -/
def malloc (o : PgTextOptions) (r : PgReader) : Option Nat × PgReader :=
  if o.allocOk r.heap.next then (some r.heap.next, { r with heap := { r.heap with next := r.heap.next + 1 } }) else (none, r)

/-- `yyjson_pg_text_free` -/
def free (r : PgReader) (ptr : Option Nat) : PgReader :=
  match ptr with
  | some p => { r with heap := { r.heap with freed := p :: r.heap.freed } }
  | none => r

/-- `alc.realloc` of a block, or `alc.malloc` when there is none yet. The old block is given back only on success. -/
def realloc (o : PgTextOptions) (r : PgReader) (ptr : Option Nat) : Option Nat × PgReader :=
  match r.malloc o with
  | (some p, r) => (some p, r.free ptr)
  | (none, r) => (none, r)

end PgReader

/-- Read the byte at the cursor. -/
def deref : List Byte → Except PgTextHalt Byte
  | [] => .error .overrun
  | c :: _ => .ok c

/-! ## Characters -/

/-- `yyjson_pg_text_is_ws` -/
def isJsonWs (c : Byte) : Bool := c == 0x20 || c == 0x0a || c == 0x0d || c == 0x09

/-- `yyjson_pg_text_is_digit` -/
def isJsonDigit (c : Byte) : Bool := decide (0x30 ≤ c) && decide (c ≤ 0x39)

/-- `yyjson_pg_text_hex_val`; `none` is `-1`. -/
def jsonHexVal (c : Byte) : Option Nat :=
  if 0x30 ≤ c ∧ c ≤ 0x39 then some (c.toNat - 0x30)
  else if 0x61 ≤ c ∧ c ≤ 0x66 then some (c.toNat - 0x61 + 10)
  else if 0x41 ≤ c ∧ c ≤ 0x46 then some (c.toNat - 0x41 + 10)
  else none

/-- `yyjson_pg_text_is_hex` -/
def isJsonHex (c : Byte) : Bool :=
  (decide (0x30 ≤ c) && decide (c ≤ 0x39)) || (decide (0x61 ≤ c) && decide (c ≤ 0x66)) ||
    (decide (0x41 ≤ c) && decide (c ≤ 0x46))

/-- `yyjson_pg_text_skip_ws` -/
def skipJsonWs : List Byte → List Byte
  | [] => []
  | c :: cur => if isJsonWs c then skipJsonWs cur else c :: cur

/-- A loop over digits. -/
def skipJsonDigits : List Byte → List Byte
  | [] => []
  | c :: cur => if isJsonDigit c then skipJsonDigits cur else c :: cur

/-! ## Buffers -/

/-- A buffer that bytes are appended to: `*buf`, its bytes (`*len` of them) and `*cap`. -/
structure KeyBuf where
  ptr : Option Nat
  bytes : List Byte
  cap : Nat
  deriving DecidableEq, Repr

/-- `NULL, 0, 0` -/
def KeyBuf.empty : KeyBuf := ⟨none, [], 0⟩

/-- The capacity that `yyjson_pg_text_append_byte` goes on to. -/
def KeyBuf.newCap (buf : KeyBuf) : Nat :=
  let minCap := buf.bytes.length + 1
  if buf.cap > usizeMax / 2 then minCap
  else
    let newCap := if buf.cap ≠ 0 then buf.cap * 2 else 16
    if newCap < minCap then minCap else newCap

/-- `yyjson_pg_text_append_byte` -/
def appendByte (o : PgTextOptions) (r : PgReader) (buf : KeyBuf) (c : Byte) : Bool × PgReader × KeyBuf :=
  if buf.bytes.length = usizeMax then (false, r.setError o .memoryAllocation msgMalloc, buf)
  else if buf.bytes.length = buf.cap then
    match r.realloc o buf.ptr with
    | (none, r) => (false, r.setError o .memoryAllocation msgMalloc, buf)
    | (some p, r) => (true, r, ⟨some p, buf.bytes ++ [c], buf.newCap⟩)
  else (true, r, { buf with bytes := buf.bytes ++ [c] })

/-- Calls of it chained by `&&`. -/
def appendBytes (o : PgTextOptions) (r : PgReader) (buf : KeyBuf) : List Byte → Bool × PgReader × KeyBuf
  | [] => (true, r, buf)
  | c :: cs =>
    match appendByte o r buf c with
    | (false, r, buf) => (false, r, buf)
    | (true, r, buf) => appendBytes o r buf cs

/-- `yyjson_pg_text_append_utf8` -/
def appendUtf8 (o : PgTextOptions) (r : PgReader) (buf : KeyBuf) (cp : Nat) : Bool × PgReader × KeyBuf :=
  if cp ≤ 0x7F then appendBytes o r buf [UInt8.ofNat cp]
  else if cp ≤ 0x7FF then
    appendBytes o r buf [UInt8.ofNat (0xC0 ||| cp >>> 6), UInt8.ofNat (0x80 ||| (cp &&& 0x3F))]
  else if cp ≤ 0xFFFF then
    appendBytes o r buf
      [UInt8.ofNat (0xE0 ||| cp >>> 12), UInt8.ofNat (0x80 ||| (cp >>> 6 &&& 0x3F)), UInt8.ofNat (0x80 ||| (cp &&& 0x3F))]
  else if cp ≤ 0x10FFFF then
    appendBytes o r buf
      [UInt8.ofNat (0xF0 ||| cp >>> 18), UInt8.ofNat (0x80 ||| (cp >>> 12 &&& 0x3F)), UInt8.ofNat (0x80 ||| (cp >>> 6 &&& 0x3F)),
        UInt8.ofNat (0x80 ||| (cp &&& 0x3F))]
  else (false, r, buf)

/-! ## Strings -/

/-- `yyjson_pg_text_read_hex4`: `none` when one of the bytes is no hexadecimal digit. -/
def readHex4 (cur : List Byte) : Except PgTextHalt (Option Nat) := do
  let h0 := jsonHexVal (← deref cur)
  let h1 := jsonHexVal (← deref (cur.drop 1))
  let h2 := jsonHexVal (← deref (cur.drop 2))
  let h3 := jsonHexVal (← deref (cur.drop 3))
  match h0, h1, h2, h3 with
  | some h0, some h1, some h2, some h3 => return some (h0 <<< 12 ||| h1 <<< 8 ||| h2 <<< 4 ||| h3)
  | _, _, _, _ => return none

/-- What reading an escape gives: the code point and the cursor behind it, unless it is refused. -/
abbrev EscapeResult := Option (Nat × List Byte) × PgReader

/-- The end of `yyjson_pg_text_read_unicode_escape`, when the code point is known. -/
def checkCodePoint (o : PgTextOptions) (r : PgReader) (escape cp : Nat) (cur : List Byte) : EscapeResult :=
  if cp = 0 then (none, r.setErrorAt .invalidString "unsupported unicode escape in string" escape)
  else
    match o.validateUnicode with
    | some validate =>
      if validate cp then (some (cp, cur), r) else (none, r.setErrorAt .invalidString "invalid unicode escape in string" escape)
    | none => (some (cp, cur), r)

/-- `yyjson_pg_text_read_unicode_escape`, with the cursor behind `\u`. -/
def readUnicodeEscape (o : PgTextOptions) (r : PgReader) (cur : List Byte) : Except PgTextHalt EscapeResult := do
  let at_ := o.len - cur.length
  let escape := if at_ ≥ 2 then at_ - 2 else at_
  let badPair : EscapeResult := (none, r.setErrorAt .invalidString "invalid unicode surrogate pair in string" escape)
  if cur.length < 4 then return (none, r.setErrorAt .invalidString "invalid unicode escape in string" escape)
  else
    match ← readHex4 cur with
    | none => return (none, r.setErrorAt .invalidString "invalid unicode escape in string" escape)
    | some cp =>
      let cur := cur.drop 4
      if 0xD800 ≤ cp ∧ cp ≤ 0xDBFF then
        if cur.length < 6 then return badPair
        else if (← deref cur) ≠ 0x5c then return badPair
        else if (← deref (cur.drop 1)) ≠ 0x75 then return badPair
        else
          match ← readHex4 (cur.drop 2) with
          | none => return badPair
          | some lo =>
            if lo < 0xDC00 ∨ lo > 0xDFFF then return badPair
            else return checkCodePoint o r escape (0x10000 + ((cp - 0xD800) <<< 10 ||| (lo - 0xDC00))) (cur.drop 6)
      else if 0xDC00 ≤ cp ∧ cp ≤ 0xDFFF then return badPair
      else return checkCodePoint o r escape cp cur

/-- The byte that a simple escape stands for: the cases of the switch but `u`. -/
def simpleEscape (c : Byte) : Option Byte :=
  if c = 0x22 then some 0x22
  else if c = 0x5c then some 0x5c
  else if c = 0x2f then some 0x2f
  else if c = 0x62 then some 0x08
  else if c = 0x66 then some 0x0c
  else if c = 0x6e then some 0x0a
  else if c = 0x72 then some 0x0d
  else if c = 0x74 then some 0x09
  else none

/-- `fail:` of `yyjson_pg_text_parse_string`. -/
def failString (r : PgReader) (buf : KeyBuf) : Option KeyBuf × PgReader := (none, r.free buf.ptr)

/-- The case `u` when the escape is neither decoded nor validated: the cursor behind four hexadecimal digits. -/
def skipHex4 (cur : List Byte) : Except PgTextHalt (Option (List Byte)) := do
  if cur.length < 4 then return none
  else
    let h0 ← deref cur
    let h1 ← deref (cur.drop 1)
    let h2 ← deref (cur.drop 2)
    let h3 ← deref (cur.drop 3)
    if isJsonHex h0 && isJsonHex h1 && isJsonHex h2 && isJsonHex h3 then return some (cur.drop 4) else return none

/-- The loop of `yyjson_pg_text_parse_string`: a fuel of more than the bytes that are left never runs out. -/
def stringLoop (o : PgTextOptions) (decode : Bool) :
    Nat → PgReader → KeyBuf → List Byte → Except PgTextHalt (Option KeyBuf × PgReader)
  | 0, _, _, _ => .error .diverges
  | n + 1, r, buf, cur => do
    if cur = [] then return failString r buf
    else
      let c ← deref cur
      let cur := cur.tail
      if c = 0x22 then
        let r := { r with cur }
        if decode then return (some buf, r) else return (some KeyBuf.empty, r.free buf.ptr)
      else if c < 0x20 then return failString r buf
      else if c = 0x5c then
        if cur = [] then return failString r buf
        else
          let c ← deref cur
          let cur := cur.tail
          match simpleEscape c with
          | some b =>
            if decode then
              match appendByte o r buf b with
              | (true, r, buf) => stringLoop o decode n r buf cur
              | (false, r, buf) => return failString r buf
            else stringLoop o decode n r buf cur
          | none =>
            if c = 0x75 then
              if decode || o.validateUnicode.isSome then
                match ← readUnicodeEscape o r cur with
                | (none, r) => return failString r buf
                | (some (cp, cur), r) =>
                  if decode then
                    match appendUtf8 o r buf cp with
                    | (true, r, buf) => stringLoop o decode n r buf cur
                    | (false, r, buf) => return failString r buf
                  else stringLoop o decode n r buf cur
              else
                match ← skipHex4 cur with
                | some cur => stringLoop o decode n r buf cur
                | none => return failString r buf
            else return failString r buf
      else if decode then
        match appendByte o r buf c with
        | (true, r, buf) => stringLoop o decode n r buf cur
        | (false, r, buf) => return failString r buf
      else stringLoop o decode n r buf cur

/-- `yyjson_pg_text_parse_string`: the buffer, which is empty when nothing is decoded, or `none` for `false`. Every caller wants
the buffer exactly when it is decoded. -/
def parseString (o : PgTextOptions) (r : PgReader) (decode : Bool) : Except PgTextHalt (Option KeyBuf × PgReader) := do
  if r.cur = [] then return (none, r)
  else if (← deref r.cur) ≠ 0x22 then return (none, r)
  else stringLoop o decode (r.cur.length + 1) r KeyBuf.empty r.cur.tail

/-! ## Numbers and literals -/

/-- The sign of `yyjson_pg_text_parse_number`. -/
def numberSign (cur : List Byte) : Except PgTextHalt (Option (List Byte)) := do
  if cur = [] then return none
  else if (← deref cur) = 0x2d then
    if cur.tail = [] then return none else return some cur.tail
  else return some cur

/-- The digits before the point. -/
def numberInt (cur : List Byte) : Except PgTextHalt (Option (List Byte)) := do
  let c ← deref cur
  if c = 0x30 then return some cur.tail
  else if 0x31 ≤ c ∧ c ≤ 0x39 then return some (skipJsonDigits cur.tail)
  else return none

/-- At least one digit, and all that follow. -/
def numberDigits (cur : List Byte) : Except PgTextHalt (Option (List Byte)) := do
  if cur = [] then return none
  else if isJsonDigit (← deref cur) then return some (skipJsonDigits cur.tail)
  else return none

/-- The point and the digits behind it. -/
def numberFrac (cur : List Byte) : Except PgTextHalt (Option (List Byte)) := do
  if cur = [] then return some cur
  else if (← deref cur) = 0x2e then numberDigits cur.tail
  else return some cur

/-- The exponent. -/
def numberExp (cur : List Byte) : Except PgTextHalt (Option (List Byte)) := do
  if cur = [] then return some cur
  else
    let c ← deref cur
    if c = 0x65 ∨ c = 0x45 then
      let cur := cur.tail
      if cur = [] then numberDigits cur
      else
        let c ← deref cur
        if c = 0x2b ∨ c = 0x2d then numberDigits cur.tail else numberDigits cur
    else return some cur

/-- `yyjson_pg_text_parse_number` -/
def parseNumber (r : PgReader) : Except PgTextHalt (Bool × PgReader) := do
  match ← numberSign r.cur with
  | none => return (false, r)
  | some cur =>
    match ← numberInt cur with
    | none => return (false, r)
    | some cur =>
      match ← numberFrac cur with
      | none => return (false, r)
      | some cur =>
        match ← numberExp cur with
        | none => return (false, r)
        | some cur => return (true, { r with cur })

/-- `yyjson_pg_text_match_literal` -/
def matchLiteral (r : PgReader) (lit : List Byte) : Bool × PgReader :=
  if r.cur.length < lit.length then (false, r)
  else if r.cur.take lit.length ≠ lit then (false, r)
  else (true, { r with cur := r.cur.drop lit.length })

/-! ## Key lists -/

/-- `yyjson_pg_key`: the block, and the bytes in it. -/
structure PgKey where
  ptr : Option Nat
  bytes : List Byte
  deriving DecidableEq, Repr

/-- A slot table: its block, and the index in each used slot. -/
structure PgKeySlots where
  ptr : Nat
  table : LinearProbing.Table Nat

/-- `yyjson_pg_key_list`: `count` is the number of the keys. -/
structure PgKeyList where
  keys : List PgKey
  keysPtr : Option Nat
  cap : Nat
  slots : Option PgKeySlots
  slotCap : Nat

/-- `{ NULL, 0, 0, NULL, 0 }` -/
def PgKeyList.empty : PgKeyList := ⟨[], none, 0, none, 0⟩

/-- The bytes of the key with an index. -/
def keyBytesAt (keys : List PgKey) (index : Nat) : List Byte := (keys[index]?.map (·.bytes)).getD []

/-- `yyjson_pg_text_keys_free` -/
def keysFree (r : PgReader) (keys : PgKeyList) : PgReader :=
  ((keys.keys.foldl (fun r key => r.free key.ptr) r).free (keys.slots.map (·.ptr))).free keys.keysPtr

/-- `yyjson_pg_text_key_hash` -/
def keyHash (bytes : List Byte) : UInt64 :=
  bytes.foldl (fun hash b => (hash ^^^ b.toUInt64) * 0x00000100000001b3) 0xcbf29ce484222325

/-- The slot that a key starts from: its hash under the mask of the table. -/
def keyHome (slotCap : Nat) (bytes : List Byte) : Nat := (keyHash bytes).toNat &&& (slotCap - 1)

/-- The slot after a slot. -/
def keyNext (slotCap pos : Nat) : Nat := (pos + 1) &&& (slotCap - 1)

/-- `yyjson_pg_text_key_hash_insert` -/
def keyHashInsert (table : LinearProbing.Table Nat) (slotCap : Nat) (keys : List PgKey) (index : Nat) :
    Except PgTextHalt (LinearProbing.Table Nat) :=
  match LinearProbing.freeSlot (keyNext slotCap) table slotCap (keyHome slotCap (keyBytesAt keys index)) with
  | some pos => .ok (Function.update table pos (some index))
  | none => .error .diverges

/-- The loop of `yyjson_pg_text_keys_hash_resize` over `new_cap`: `none` when it grows too large. -/
def growSlotCap (needed : Nat) : Nat → Nat → Except PgTextHalt (Option Nat)
  | 0, _ => .error .diverges
  | n + 1, newCap =>
    if newCap < needed * 2 then
      if newCap > usizeMax / 2 then .ok none else growSlotCap needed n (newCap * 2)
    else .ok (some newCap)

/-- The insertion of the keys with the indices from `i` on. -/
def insertAll (slotCap : Nat) (keys : List PgKey) : List Nat → LinearProbing.Table Nat →
    Except PgTextHalt (LinearProbing.Table Nat)
  | [], table => .ok table
  | i :: is, table => do
    let table ← keyHashInsert table slotCap keys i
    insertAll slotCap keys is table

/-- `yyjson_pg_text_keys_hash_resize` -/
def keysHashResize (o : PgTextOptions) (r : PgReader) (keys : PgKeyList) (needed : Nat) :
    Except PgTextHalt (Bool × PgReader × PgKeyList) := do
  let failed := (false, r.setError o .memoryAllocation msgMalloc, keys)
  if needed > usizeMax / 2 then return failed
  else
    match ← growSlotCap needed 64 (keyHashThreshold * 2) with
    | none => return failed
    | some newCap =>
      if newCap > usizeMax / sizeofPgKey then return failed
      else
        match r.malloc o with
        | (none, r) => return (false, r.setError o .memoryAllocation msgMalloc, keys)
        | (some p, r) =>
          let table ← insertAll newCap keys.keys (List.range keys.keys.length) fun _ => none
          return (true, r.free (keys.slots.map (·.ptr)), { keys with slots := some ⟨p, table⟩, slotCap := newCap })

/-- `yyjson_pg_text_keys_ensure_hash` -/
def keysEnsureHash (o : PgTextOptions) (r : PgReader) (keys : PgKeyList) (needed : Nat) :
    Except PgTextHalt (Bool × PgReader × PgKeyList) :=
  match keys.slots with
  | some _ => if needed ≤ keys.slotCap / 2 then .ok (true, r, keys) else keysHashResize o r keys needed
  | none => if needed < keyHashThreshold then .ok (true, r, keys) else keysHashResize o r keys needed

/-- `yyjson_pg_text_keys_append` -/
def keysAppend (o : PgTextOptions) (r : PgReader) (keys : PgKeyList) (key : PgKey) : Bool × PgReader × PgKeyList :=
  if keys.keys.length = keys.cap then
    if keys.cap > usizeMax / sizeofPgKey ∨ keys.cap > usizeMax / sizeofPgKey / 2 then
      (false, r.setError o .memoryAllocation msgMalloc, keys)
    else
      let newCap := if keys.cap ≠ 0 then keys.cap * 2 else 8
      if newCap > usizeMax / sizeofPgKey then (false, r.setError o .memoryAllocation msgMalloc, keys)
      else
        match r.realloc o keys.keysPtr with
        | (none, r) => (false, r.setError o .memoryAllocation msgMalloc, keys)
        | (some p, r) => (true, r, { keys with keys := keys.keys ++ [key], keysPtr := some p, cap := newCap })
  else (true, r, { keys with keys := keys.keys ++ [key] })

/-- The walk of `yyjson_pg_text_keys_add_unique` through the table: the free slot it ends at, or `none` at an equal key. -/
def probeKey (table : LinearProbing.Table Nat) (slotCap : Nat) (keys : List PgKey) (bytes : List Byte) :
    Nat → Nat → Except PgTextHalt (Option Nat)
  | 0, _ => .error .diverges
  | n + 1, pos =>
    match table pos with
    | none => .ok (some pos)
    | some index =>
      if keyBytesAt keys index = bytes then .ok none else probeKey table slotCap keys bytes n (keyNext slotCap pos)

/-- `yyjson_pg_text_keys_add_unique` -/
def keysAddUnique (o : PgTextOptions) (r : PgReader) (keys : PgKeyList) (key : PgKey) :
    Except PgTextHalt (Bool × PgReader × PgKeyList) := do
  if keys.keys.length = usizeMax then return (false, r.setError o .memoryAllocation msgMalloc, keys)
  else
    match ← keysEnsureHash o r keys (keys.keys.length + 1) with
    | (false, r, keys) => return (false, r, keys)
    | (true, r, keys) =>
      match keys.slots with
      | some slots =>
        match ← probeKey slots.table keys.slotCap keys.keys key.bytes keys.slotCap (keyHome keys.slotCap key.bytes) with
        | none => return (false, r, keys)
        | some pos =>
          match keysAppend o r keys key with
          | (false, r, keys) => return (false, r, keys)
          | (true, r, appended) =>
            return (true, r, { appended with
              slots := some { slots with table := Function.update slots.table pos (some keys.keys.length) } })
      | none =>
        if keys.keys.any (·.bytes == key.bytes) then return (false, r, keys) else return keysAppend o r keys key

/-! ## Values -/

namespace PgReader

/-- Move the cursor over whitespace. -/
def skipWs (r : PgReader) : PgReader := { r with cur := skipJsonWs r.cur }

/-- `r->cur++` -/
def advance (r : PgReader) : PgReader := { r with cur := r.cur.tail }

end PgReader

/-- The key of a member and the colon behind it: `none` for `goto fail`. -/
def parseKey (o : PgTextOptions) (r : PgReader) (keys : PgKeyList) : Except PgTextHalt (Bool × PgReader × PgKeyList) := do
  match ← parseString o r o.checkUniqueKeys with
  | (none, r) => return (false, r, keys)
  | (some buf, r) =>
    let (ok, r, keys) ← if o.checkUniqueKeys then keysAddUnique o r keys ⟨buf.ptr, buf.bytes⟩ else .ok (true, r, keys)
    if ok then
      let r := r.skipWs
      if r.cur = [] then return (false, r, keys)
      else if (← deref r.cur) ≠ 0x3a then return (false, r, keys)
      else return (true, r.advance.skipWs, keys)
    else return (false, r.free buf.ptr, keys)

mutual

/-- `yyjson_pg_text_parse_value`: the type, or `none` for `false`. -/
def parseValue (o : PgTextOptions) : Nat → PgReader → Nat → Except PgTextHalt (Option PgTextType × PgReader)
  | 0, _, _ => .error .diverges
  | n + 1, r, depth => do
    if r.cur = [] then return (none, r)
    else
      let c ← deref r.cur
      if c = 0x7b then
        let (ok, r) ← parseObject o n r depth
        return (if ok then some .object else none, r)
      else if c = 0x5b then
        let (ok, r) ← parseArray o n r depth
        return (if ok then some .array else none, r)
      else if c = 0x22 then
        let (str, r) ← parseString o r o.checkUniqueKeys
        return (str.map fun _ => .scalar, r.free (str.bind (·.ptr)))
      else if c = 0x74 then
        let (ok, r) := matchLiteral r [0x74, 0x72, 0x75, 0x65]
        return (if ok then some .scalar else none, r)
      else if c = 0x66 then
        let (ok, r) := matchLiteral r [0x66, 0x61, 0x6c, 0x73, 0x65]
        return (if ok then some .scalar else none, r)
      else if c = 0x6e then
        let (ok, r) := matchLiteral r [0x6e, 0x75, 0x6c, 0x6c]
        return (if ok then some .scalar else none, r)
      else if c = 0x2d ∨ isJsonDigit c = true then
        let (ok, r) ← parseNumber r
        return (if ok then some .scalar else none, r)
      else return (none, r)

/-- `yyjson_pg_text_parse_array` -/
def parseArray (o : PgTextOptions) : Nat → PgReader → Nat → Except PgTextHalt (Bool × PgReader)
  | 0, _, _ => .error .diverges
  | n + 1, r, depth => do
    if depth ≥ o.depthLimit then return (false, r.setError o .depth msgDepth)
    else
      let r := r.advance.skipWs
      if r.cur = [] then arrayLoop o n r depth
      else if (← deref r.cur) = 0x5d then return (true, r.advance)
      else arrayLoop o n r depth

/-- The loop of `yyjson_pg_text_parse_array`. -/
def arrayLoop (o : PgTextOptions) : Nat → PgReader → Nat → Except PgTextHalt (Bool × PgReader)
  | 0, _, _ => .error .diverges
  | n + 1, r, depth => do
    let (type, r) ← parseValue o n r (depth + 1)
    if type.isNone then return (false, r)
    else
      let r := r.skipWs
      if r.cur = [] then return (false, r)
      else
        let c ← deref r.cur
        if c = 0x5d then return (true, r.advance)
        else if c ≠ 0x2c then return (false, r)
        else
          let r := r.advance.skipWs
          if r.cur = [] then return (false, r)
          else if (← deref r.cur) = 0x5d then return (false, r)
          else arrayLoop o n r depth

/-- `yyjson_pg_text_parse_object` -/
def parseObject (o : PgTextOptions) : Nat → PgReader → Nat → Except PgTextHalt (Bool × PgReader)
  | 0, _, _ => .error .diverges
  | n + 1, r, depth => do
    if depth ≥ o.depthLimit then return (false, r.setError o .depth msgDepth)
    else
      let r := r.advance.skipWs
      if r.cur = [] then objectLoop o n r depth PgKeyList.empty
      else if (← deref r.cur) = 0x7d then return (true, r.advance)
      else objectLoop o n r depth PgKeyList.empty

/-- The loop of `yyjson_pg_text_parse_object`; the keys are freed where it ends. -/
def objectLoop (o : PgTextOptions) : Nat → PgReader → Nat → PgKeyList → Except PgTextHalt (Bool × PgReader)
  | 0, _, _, _ => .error .diverges
  | n + 1, r, depth, keys => do
    let (ok, r, keys) ← parseKey o r keys
    if ok = false then return (false, keysFree r keys)
    else
      let (type, r) ← parseValue o n r (depth + 1)
      if type.isNone then return (false, keysFree r keys)
      else
        let r := r.skipWs
        if r.cur = [] then return (false, keysFree r keys)
        else
          let c ← deref r.cur
          if c = 0x7d then return (true, keysFree r.advance keys)
          else if c ≠ 0x2c then return (false, keysFree r keys)
          else
            let r := r.advance.skipWs
            if r.cur = [] then return (false, keysFree r keys)
            else if (← deref r.cur) = 0x7d then return (false, keysFree r keys)
            else objectLoop o n r depth keys

end

/-! ## The whole text -/

/-- What a call gives: the type, the error, and the allocations it made. -/
structure PgTextResult where
  type : PgTextType
  err : Option ReadErr
  heap : KeyHeap
  deriving DecidableEq, Repr

/-- `yyjson_read_pg_text_type_opts_err_ex` on a text that is not a null pointer, with a complete allocator. -/
def yyjsonReadPgTextType (depthLimit : Nat) (checkUniqueKeys : Bool) (validateUnicode : Option (Nat → Bool))
    (allocOk : Nat → Bool) (dat : List Byte) : Except PgTextHalt PgTextResult := do
  let heap : KeyHeap := ⟨0, []⟩
  if dat.length = 0 then return ⟨.invalid, some ⟨.invalidParameter, "input length is 0", 0⟩, heap⟩
  else
    let o : PgTextOptions := ⟨depthLimit, checkUniqueKeys, validateUnicode, allocOk, dat.length⟩
    let r : PgReader := { cur := skipJsonWs dat, err := none, heap }
    match ← parseValue o (3 * dat.length + 1) r 0 with
    | (none, r) => return ⟨.invalid, some (r.err.getD ⟨.jsonStructure, msgChar, o.len - r.cur.length⟩), r.heap⟩
    | (some type, r) =>
      let r := r.skipWs
      if r.cur ≠ [] then return ⟨.invalid, some ⟨.unexpectedContent, msgGarbage, o.len - r.cur.length⟩, r.heap⟩
      else return ⟨type, none, r.heap⟩

end PgJitter
