import Mathlib.Logic.Function.Basic
import Mema.Lz4.Uncompress

/-!
# Compression

`memapass/lz4.c:322–675`, which `memagrind/memadump/lz4.c` repeats, on a 64-bit little-endian
machine with its tables on the stack. Two functions share one text; `Variant` holds what
differs between them. Positions are offsets into the source.
-/

namespace Mema.Lz4

open Bytes Memory

/-- `MFLIMIT` -/
def mfLimit : Nat := copyLength + minMatch

/-- `MINLENGTH` -/
def minLength : Nat := mfLimit + 1

/-- `SKIPSTRENGTH` -/
def skipStrength : Nat := 6

/-- `MAX_DISTANCE` -/
def maxDistance : Nat := 2 ^ 16 - 1

/-- What differs between the two compression functions. -/
structure Variant where
  /-- `HASH_LOG` or `HASHLOG64K` -/
  hashLog : Nat
  /-- the width of a table entry -/
  entryBits : Nat
  /-- the distance beyond which a reference is not used -/
  distance : Option Nat
  /-- whether the first byte is put in the table -/
  firstByte : Bool
  /-- what the last literals are taken to need besides themselves -/
  tailRoom : Nat → Nat

/-- `LZ4_compressCtx` -/
def variantCtx : Variant := ⟨12, 32, some maxDistance, true, fun lastRun ↦ (lastRun - 15) / 255⟩

/-- `LZ4_compress64kCtx` -/
def variant64k : Variant := ⟨13, 16, none, false, fun lastRun ↦ lastRun / 2 ^ 8⟩

/-- `HashTable` -/
abbrev Table : Type := Nat → Nat

namespace Variant

/-- `HashTable[h] = p - base` -/
def put (v : Variant) (table : Table) (h p : Nat) : Table :=
  Function.update table h (p % 2 ^ v.entryBits)

/-- `LZ4_HASH_FUNCTION`, `lz4.c:242,491` -/
def hashFunction (v : Variant) (i : Nat) : Nat := i * 2654435761 % 2 ^ 32 / 2 ^ (32 - v.hashLog)

/-- `LZ4_HASH_VALUE`, `lz4.c:243,492` -/
def hashValue (v : Variant) (src : List UInt8) (p : Nat) : Except Trap Nat :=
  return v.hashFunction (leNat (← read src p 4))

/-- The reference is near enough and starts with the four bytes at `ip`. -/
def accepts (v : Variant) (src : List UInt8) (ip ref : Nat) : Except Trap Bool :=
  if v.distance.all (ip ≤ ref + ·) then return (← read src ref 4) = (← read src ip 4)
  else return false

/-- `Find a match`, `lz4.c:383–396`, after `k` attempts, with `forwardIp` and `forwardH`: the
position, its reference and the table, or nothing if the source ends first. -/
def findMatch (v : Variant) (src : List UInt8) (k forwardIp forwardH : Nat) (table : Table) :
    Except Trap (Option (Nat × Nat × Table)) :=
  let ip := forwardIp
  let step := (2 ^ skipStrength + 3 + k) / 2 ^ skipStrength
  if src.length < ip + step + mfLimit then return none
  else do
    let h ← v.hashValue src (ip + step)
    let ref := table forwardH
    let table := v.put table forwardH ip
    if ← v.accepts src ip ref then return some (ip, ref, table)
    else findMatch v src (k + 1) (ip + step) h table
termination_by src.length - forwardIp
decreasing_by
  have hstep : 0 < (2 ^ skipStrength + 3 + k) / 2 ^ skipStrength :=
    Nat.div_pos (by omega) (by decide)
  rw [mfLimit, minMatch] at *
  omega

end Variant

/-- `Catch up`, `lz4.c:399`: `ip` and `ref`. -/
def catchUp (src : List UInt8) (anchor : Nat) : Nat → Nat → Except Trap (Nat × Nat)
  | ip + 1, ref + 1 =>
    if anchor < ip + 1 then do
      if (← readCell src ip) = (← readCell src ref) then catchUp src anchor ip ref
      else return (ip + 1, ref + 1)
    else return (ip + 1, ref + 1)
  | ip, ref => return (ip, ref)

/-! ### Output -/

/-- The output buffer and `op`. -/
structure Out where
  dest : List UInt8
  op : Nat

namespace Out

/-- Write bytes at `op` and move it on. -/
def puts (out : Out) (bytes : List UInt8) : Except Trap Out :=
  return ⟨← write out.dest out.op bytes, out.op + bytes.length⟩

/-- `*op++ = b` -/
def put (out : Out) (b : UInt8) : Except Trap Out := out.puts [b]

/-- `for(; len > 254 ; len-=255) *op++ = 255; *op++ = (BYTE)len;` -/
def putRun (out : Out) (len : Nat) : Except Trap Out := do
  if 254 < len then putRun (← out.put 255) (len - 255) else out.put (UInt8.ofNat len)
termination_by len
decreasing_by omega

/-- The same two bytes at a time, `lz4.c:452`. -/
def putRun2 (out : Out) (len : Nat) : Except Trap Out := do
  if 509 < len then putRun2 (← (← out.put 255).put 255) (len - 510)
  else if 254 < len then (← out.put 255).put (UInt8.ofNat (len - 255))
  else out.put (UInt8.ofNat len)
termination_by len
decreasing_by omega

/-- A token for literals, and the bytes of their length, `lz4.c:423,475`. -/
def putLength (out : Out) (length : Nat) : Except Trap Out := do
  if runMask ≤ length then (← out.put (UInt8.ofNat (runMask * 16))).putRun (length - runMask)
  else out.put (UInt8.ofNat (length * 16))

/-- `*token += n` -/
def addToken (out : Out) (token n : Nat) : Except Trap Out := do
  let tok ← readCell out.dest token
  return ⟨← write out.dest token [tok + UInt8.ofNat n], out.op⟩

/-- The match length, `lz4.c:450–452`. -/
def putMatchLength (out : Out) (token len : Nat) : Except Trap Out := do
  if runMask ≤ len then (← out.addToken token runMask).putRun2 (len - runMask)
  else out.addToken token len

/-- Literal length and literals, `lz4.c:401–428`: nothing when they may not fit. -/
def putLiterals (out : Out) (src : List UInt8) (maxOutputSize anchor ip : Nat) :
    Except Trap (Option Out) := do
  let length := ip - anchor
  if maxOutputSize ≤ out.op + 1 + length + (2 + 1 + lastLiterals) + length / 256 then
    return none
  let out ← out.putLength length
  let (dest, _, _) ← wildCopy src out.dest anchor out.op (out.op + length)
  return some ⟨dest, out.op + length⟩

end Out

/-! ### Counting -/

/-- `__builtin_ctzll`, of a number of so many bits. -/
def ctz : Nat → Nat → Nat
  | 0, _ => 0
  | w + 1, val => if val % 2 = 1 then 0 else ctz w (val / 2) + 1

/-- `LZ4_NbCommonBytes`, `lz4.c:253–281` -/
def nbCommonBytes (val : Nat) : Nat := ctz 64 val / 2 ^ 3

/-- One of the comparisons behind the counting loop, `lz4.c:444–446`. -/
def countTail (src : List UInt8) (n : Nat) (p : Nat × Nat) : Except Trap (Nat × Nat) := do
  if p.1 + n + lastLiterals ≤ src.length then
    if (← read src p.2 n) = (← read src p.1 n) then return (p.1 + n, p.2 + n) else return p
  else return p

/-- `Start Counting`, `lz4.c:437–447`: where the match ends. -/
def countMatch (src : List UInt8) (ip ref : Nat) : Except Trap Nat := do
  if ip + 8 + lastLiterals ≤ src.length then
    let diff := leNat (← read src ref 8) ^^^ leNat (← read src ip 8)
    if diff = 0 then countMatch src (ip + 8) (ref + 8) else return ip + nbCommonBytes diff
  else
    let p ← countTail src 4 (ip, ref)
    let p ← countTail src 2 p
    let p ← countTail src 1 p
    return p.1
termination_by src.length - ip

/-! ### The compressor -/

/-- Where the control stands: at the main loop, at `_next_match` or at `_last_literals`. -/
inductive Label
  | mainLoop (ip anchor forwardH : Nat)
  | nextMatch (ip ref token : Nat)
  | lastLiterals (anchor : Nat)

/-- The state of a compression. -/
structure Compressor where
  table : Table
  out : Out
  label : Label

/-- Either the compressor goes on or it returns its result and the output. -/
abbrev Compressor.Next : Type := Compressor ⊕ (Nat × List UInt8)

namespace Variant

/-- From the main loop to `_next_match`, `lz4.c:376–428`. -/
def mainLoop (v : Variant) (src : List UInt8) (maxOutputSize : Nat) (table : Table) (out : Out)
    (ip anchor forwardH : Nat) : Except Trap Compressor.Next := do
  match ← v.findMatch src 0 ip forwardH table with
  | none => return .inl ⟨table, out, .lastLiterals anchor⟩
  | some (ip, ref, table) =>
    let (ip, ref) ← catchUp src anchor ip ref
    match ← out.putLiterals src maxOutputSize anchor ip with
    | none => return .inr (0, out.dest)
    | some out' => return .inl ⟨table, out', .nextMatch ip ref out.op⟩

/-- After a match that ends at `ip`, `lz4.c:454–468`. -/
def afterMatch (v : Variant) (src : List UInt8) (table : Table) (out : Out) (ip : Nat) :
    Except Trap Compressor.Next := do
  if src.length < ip + mfLimit then return .inl ⟨table, out, .lastLiterals ip⟩
  let table := v.put table (← v.hashValue src (ip - 2)) (ip - 2)
  let h ← v.hashValue src ip
  let ref := table h
  let table := v.put table h ip
  if ← v.accepts src ip ref then return .inl ⟨table, ← out.put 0, .nextMatch ip ref out.op⟩
  return .inl ⟨table, out, .mainLoop (ip + 1) ip (← v.hashValue src (ip + 1))⟩

/-- From `_next_match`, `lz4.c:430–468`. -/
def nextMatch (v : Variant) (src : List UInt8) (table : Table) (out : Out) (ip ref token : Nat) :
    Except Trap Compressor.Next := do
  let out ← out.puts (leBytes 2 (ip - ref))
  let anchor := ip + minMatch
  let ip ← countMatch src anchor (ref + minMatch)
  v.afterMatch src table (← out.putMatchLength token (ip - anchor)) ip

/-- From `_last_literals`, `lz4.c:470–482`. -/
def encodeLastLiterals (v : Variant) (src : List UInt8) (maxOutputSize : Nat) (out : Out)
    (anchor : Nat) : Except Trap Compressor.Next := do
  let lastRun := src.length - anchor
  if maxOutputSize ≤ out.op + lastRun + 1 + v.tailRoom lastRun then return .inr (0, out.dest)
  let out ← out.putLength lastRun
  let dest ← copy src anchor out.dest out.op lastRun
  return .inr (out.op + lastRun, dest)

/-- From one label to the next. -/
def step (v : Variant) (src : List UInt8) (maxOutputSize : Nat) (c : Compressor) :
    Except Trap Compressor.Next :=
  match c.label with
  | .mainLoop ip anchor forwardH => v.mainLoop src maxOutputSize c.table c.out ip anchor forwardH
  | .nextMatch ip ref token => v.nextMatch src c.table c.out ip ref token
  | .lastLiterals anchor => v.encodeLastLiterals src maxOutputSize c.out anchor

/-- From a label to the result. -/
def run (v : Variant) (src : List UInt8) (maxOutputSize : Nat) :
    Nat → Compressor → Except Trap (Nat × List UInt8)
  | 0, _ => .error .fuel
  | fuel + 1, c => do (← v.step src maxOutputSize c).elim (v.run src maxOutputSize fuel) .ok

/-- The start of a compression, `lz4.c:334–373`. -/
def start (v : Variant) (src dest : List UInt8) : Except Trap Compressor := do
  let out : Out := ⟨dest, 0⟩
  if src.length < minLength then return ⟨fun _ ↦ 0, out, .lastLiterals 0⟩
  let h ← v.hashValue src 0
  let table := if v.firstByte then v.put (fun _ ↦ 0) h 0 else fun _ ↦ 0
  return ⟨table, out, .mainLoop 1 0 (← v.hashValue src 1)⟩

/-- A whole compression. Two turns for each byte are more than enough. -/
def compress (v : Variant) (src dest : List UInt8) (maxOutputSize : Nat) :
    Except Trap (Nat × List UInt8) := do
  v.run src maxOutputSize (2 * src.length + 3) (← v.start src dest)

end Variant

/-- `LZ4_compressCtx(NULL, source, dest, isize, maxOutputSize)`, `lz4.c:328–484` -/
def lz4CompressCtx (source dest : List UInt8) (maxOutputSize : Nat) :
    Except Trap (Nat × List UInt8) := variantCtx.compress source dest maxOutputSize

/-- `LZ4_compress64kCtx(NULL, source, dest, isize, maxOutputSize)`, `lz4.c:493–647` -/
def lz4Compress64kCtx (source dest : List UInt8) (maxOutputSize : Nat) :
    Except Trap (Nat × List UInt8) := variant64k.compress source dest maxOutputSize

/-- `LZ4_64KLIMIT` -/
def lz464kLimit : Nat := 2 ^ 16 + (mfLimit - 1)

/-- `LZ4_compress_limitedOutput`, `lz4.c:650–667` -/
def lz4CompressLimitedOutput (source dest : List UInt8) (maxOutputSize : Nat) :
    Except Trap (Nat × List UInt8) :=
  if source.length < lz464kLimit then lz4Compress64kCtx source dest maxOutputSize
  else lz4CompressCtx source dest maxOutputSize

/-- `LZ4_compressBound`, `lz4.h:73` -/
def lz4CompressBound (isize : Nat) : Nat := isize + isize / 255 + 16

/-- `LZ4_compress`, `lz4.c:670–675`; the bound is an `int`. -/
def lz4Compress (source dest : List UInt8) : Except Trap (Nat × List UInt8) :=
  if lz4CompressBound source.length < intLimit then
    lz4CompressLimitedOutput source dest (lz4CompressBound source.length)
  else .error .intOverflow

end Mema.Lz4
