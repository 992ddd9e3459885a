import Renameutils.StrBuf
import Renameutils.Lib.Block
import Renameutils.Lib.Words

/-!
# String buffers in memory

`common/strbuf.c` again, with the allocation behind a buffer and the 32-bit arithmetic of its lengths and
positions. Every function gives `none` where it reads or writes a byte outside of its allocation. A byte that
has not been written since `xmalloc` or `xrealloc` is `none`.

A data block `mem` with a length `len` is a list of bytes, and a string is a `CString` or `NULL`. `xmalloc` and
`xrealloc` do not fail. The functions have their names in the source, without `strbuf_`.
-/

namespace Renameutils.StrBuf

/-- `struct _StrBuf`. -/
structure Mem where
  buf : Block UInt8
  len : Nat
  capacity : Nat

namespace Mem

/-- `normalize_strbuf_pos`. -/
def normalizePos (sb : Mem) (pos : Int) : Int :=
  -- `pos >= sb->len` compares unsigned numbers
  if sb.len ≤ uint32 pos then int32 sb.len
  else if 0 ≤ pos then pos
  else
    let pos := int32 (pos + (1 + sb.len))
    if 0 ≤ pos then pos else 0

/-- `normalize_str_pos`. -/
def normalizeStrPos (str : Option CString) (pos : Int) : Int :=
  match str with
  | none => 0
  | some str =>
    if 0 ≤ pos then int32 (min str.length pos.toNat)
    else
      let pos := int32 (pos + (1 + str.length))
      if 0 ≤ pos then pos else 0

/-- `if (sp > ep) SWAP_INT32(sp, ep);`. -/
def swapPos (sp ep : Int) : Int × Int := if sp > ep then (ep, sp) else (sp, ep)

/-- `buf[0] = '\0'` under a condition. -/
def nulIf (c : Bool) (buf : Block UInt8) : Option (Block UInt8) := if c then buf.store 0 [some 0] else some buf

def newWithCapacity (capacity : Nat) : Option Mem := do
  let buf ← nulIf (capacity > 0) (.alloc capacity)
  some { buf := buf, len := 0, capacity := capacity }

def new : Option Mem := newWithCapacity 16

/-- The loop of `strbuf_new_from_data_n`. -/
def newLoop (mem : List UInt8) : Nat → Block UInt8 → Option (Block UInt8)
  | 0, buf => some buf
  | times + 1, buf => do
    let buf ← buf.store (uint32 (mem.length * times)) (mem.map some)
    newLoop mem times buf

def newFromDataN (times : Nat) (mem : List UInt8) : Option Mem := do
  let sb ← newWithCapacity (uint32 (mem.length * times + 1))
  let len := uint32 (mem.length * times)
  let buf ← newLoop mem times sb.buf
  let buf ← buf.store len [some 0]
  some { sb with buf := buf, len := len }

/-- The data block from `subsp` to `subep` in a string. -/
def substringData (substr : Option CString) (subsp subep : Int) : List UInt8 :=
  let (subsp, subep) := swapPos (normalizeStrPos substr subsp) (normalizeStrPos substr subep)
  ((substr.getD []).drop subsp.toNat).take (uint32 (subep - subsp))

def newFromSubstringN (times : Nat) (substr : Option CString) (subsp subep : Int) : Option Mem :=
  newFromDataN times (substringData substr subsp subep)

/-- The string that starts at the address of one character. -/
def charString (ch : UInt8) : Option CString := some (if ch = 0 then [] else [ch])

def newFromCharN (times : Nat) (ch : UInt8) : Option Mem := newFromSubstringN times (charString ch) 0 1

def ensureCapacity (sb : Mem) (minCapacity : Nat) : Option Mem :=
  if sb.capacity < minCapacity then do
    let capacity := max minCapacity (uint32 (sb.len * 2 + 2))
    let buf ← nulIf (sb.len == 0) (sb.buf.realloc capacity)
    some { sb with buf := buf, capacity := capacity }
  else some sb

/-- The loop of `strbuf_replace_data_n`. -/
def replaceLoop (mem : List UInt8) : Nat → Block UInt8 → Int → Option (Block UInt8)
  | 0, buf, _ => some buf
  | times + 1, buf, sp => do
    let buf ← buf.store sp (mem.map some)
    replaceLoop mem times buf (int32 (sp + mem.length))

/-- The part of `strbuf_replace_data_n` that makes the range from `sp` to `ep` as long as what goes there. -/
def resizeRange (sb : Mem) (sp ep : Int) (addlen dellen : Nat) : Option Mem :=
  if addlen ≠ dellen then do
    let sb ← sb.ensureCapacity (uint32 (sb.len + 1 - dellen + addlen))
    let buf ← sb.buf.move (sp + addlen) ep (uint32 (sb.len + 1 - ep))
    some { sb with buf := buf, len := uint32 (sb.len + (addlen - dellen)) }
  else some sb

def replaceDataN (sb : Mem) (sp ep : Int) (times : Nat) (mem : List UInt8) : Option Mem := do
  let (sp, ep) := swapPos (sb.normalizePos sp) (sb.normalizePos ep)
  let addlen := uint32 (mem.length * times)
  let dellen := uint32 (ep - sp)
  let sb ← sb.resizeRange sp ep addlen dellen
  if 0 < addlen then do
    let buf ← replaceLoop mem times sb.buf sp
    some { sb with buf := buf }
  else some sb

def replaceSubstringN (sb : Mem) (sp ep : Int) (times : Nat) (substr : Option CString) (subsp subep : Int) :
    Option Mem :=
  sb.replaceDataN sp ep times (substringData substr subsp subep)

def replaceCharN (sb : Mem) (sp ep : Int) (times : Nat) (ch : UInt8) : Option Mem :=
  sb.replaceSubstringN sp ep times (charString ch) 0 1

/-- `strbuf_vreplacef_n`, where `vasprintf` has made the text `str`. -/
def vreplacefN (sb : Mem) (sp ep : Int) (times : Nat) (str : CString) : Option Mem :=
  let (sp, ep) := swapPos (sb.normalizePos sp) (sb.normalizePos ep)
  sb.replaceSubstringN sp ep times (some str) 0 str.length

def delete (sb : Mem) (sp ep : Int) : Option Mem := sb.replaceSubstringN sp ep 1 none 0 (-1)

/-- The loop of `strbuf_reverse_substring`. -/
def reverseLoop (buf : Block UInt8) (sp ep : Int) : Option (Block UInt8) :=
  if sp < ep then do
    let a ← buf.read sp
    let b ← buf.read ep
    let buf ← buf.store sp [b]
    let buf ← buf.store ep [a]
    reverseLoop buf (sp + 1) (ep - 1)
  else some buf
termination_by (ep - sp).toNat
decreasing_by omega

def reverseSubstring (sb : Mem) (sp ep : Int) : Option Mem := do
  let buf ← reverseLoop sb.buf (sb.normalizePos sp) (sb.normalizePos ep)
  some { sb with buf := buf }

/-- The loop of `strbuf_repeat_substring`. -/
def repeatLoop (sp len : Int) : Nat → Block UInt8 → Nat → Option (Block UInt8)
  | 0, buf, _ => some buf
  | times + 1, buf, p => do
    -- the third argument of `memmove` is a `size_t`
    let buf ← buf.move p sp (len % 2 ^ 64).toNat
    repeatLoop sp len times buf (uint32 (p + len))

def repeatSubstring (sb : Mem) (sp ep : Int) (times : Nat) : Option Mem := do
  let sp := sb.normalizePos sp
  let ep := sb.normalizePos ep
  let addlen := int32 ((ep - sp) * (times - 1))
  if addlen ≠ 0 then do
    let sb ← sb.ensureCapacity (uint32 (sb.len + 1 + addlen))
    let buf ← sb.buf.move (sp + addlen) ep (uint32 (sb.len + 1 - ep))
    let buf ← repeatLoop sp (ep - sp) times buf (uint32 ep)
    some { sb with buf := buf, len := uint32 (sb.len + addlen) }
  else some sb

def setLength (sb : Mem) (newLength : Nat) : Option Mem := do
  let sb ← sb.ensureCapacity (uint32 (newLength + 1))
  let buf ← sb.buf.store newLength [some 0]
  some { sb with buf := buf, len := newLength }

/-- `strbuf_substring`: the bytes of the new string, with its NUL. -/
def substring (sb : Mem) (sp ep : Int) : Option (Block UInt8) := do
  let (sp, ep) := swapPos (sb.normalizePos sp) (sb.normalizePos ep)
  let str ← sb.buf.load sp (ep - sp + 1).toNat
  Block.store str (ep - sp) [some 0]

def charAt (sb : Mem) (sp : Int) : Option (Option UInt8) := sb.buf.read (sb.normalizePos sp)

end Mem

end Renameutils.StrBuf
