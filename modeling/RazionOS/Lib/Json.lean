import RazionOS.Kernel.Misc.Hashmap

/-!
# JSON

The recursive parser over a position in the text, and the serializer. The hash maps of objects are
those of the kernel: both libraries have the same code for them. Their values are pointers to what
the object owns.
-/

namespace RazionOS.Lib.Json
open Framework UInt8
open Kernel.Hashmap (StringKey Map hashmapCreate hashmapSet hashmapGet hashmapKeys)

abbrev keyOps : Kernel.Hashmap.KeyOps StringKey := Kernel.Hashmap.KeyKind.string.ops

/-- The pointer `p + 1` of an object's map is to the value at `p`. -/
inductive Value where
  | null
  | bool (boolean : Bool)
  | number (number : Float)
  | string (string : StringKey)
  | array (array : List Value)
  | object (object : Map StringKey) (values : List Value)

/-- `rounds` is for the recursion of the parser, which is over a number of rounds. -/
inductive Fault where
  | intOverflow
  | nullPointer
  | rounds
deriving DecidableEq

def quote : UInt8 := 34
def backslash : UInt8 := 92
def openBrace : UInt8 := 123
def closeBrace : UInt8 := 125
def openBracket : UInt8 := 91
def closeBracket : UInt8 := 93
def comma : UInt8 := 44
def colon : UInt8 := 58
def newline : UInt8 := 10

/-- `string` is the text from the position `c` on. -/
structure Ctx where
  string : CString
  c : Nat
  error : Option String
  lenient : Bool
  lastLineStart : Nat
  line : Nat

def Ctx.fail (ctx : Ctx) (error : String) : Ctx := { ctx with error := some error }
def peek (ctx : Ctx) : UInt8 := ctx.string.headD 0

def advance (ctx : Ctx) : Except Fault Ctx :=
  if ctx.c+1=2^31 then .error .intOverflow
  else .ok { ctx with string := ctx.string.tail, c := ctx.c+1 }

def isWhite (ch : UInt8) : Bool := ch == 32 || ch == 13 || ch == newline || ch == 9

def whitespaceLoop : Nat → Ctx → Except Fault Ctx
  | 0, ctx => .ok ctx
  | rounds+1, ctx =>
    let ch := peek ctx
    if isWhite ch then do
      let ctx ← advance ctx
      if ch=newline then
        whitespaceLoop rounds { ctx with lastLineStart := ctx.c, line := ctx.line+1 }
      else whitespaceLoop rounds ctx
    else .ok ctx

/-- No more rounds than there are bytes. -/
def whitespace (ctx : Ctx) : Except Fault Ctx := whitespaceLoop ctx.string.length ctx

/-- The growing buffer of `string`, and its size, which is an `int`. -/
structure Buffer where
  size : Nat
  tmp : CString

def Buffer.add (buf : Buffer) (c : UInt8) : Except Fault Buffer :=
  if buf.tmp.length+1=buf.size then
    if 2^31≤buf.size*2 then .error .intOverflow
    else .ok ⟨buf.size*2,buf.tmp++[c]⟩
  else .ok ⟨buf.size,buf.tmp++[c]⟩

def isXDigit (c : UInt8) : Bool := isDigit c || (65 ≤ c && c≤70) || (97 ≤ c && c≤102)

def hexValue (c : UInt8) : Nat :=
  if isDigit c then c.toNat-48 else if c≤70 then c.toNat-55 else c.toNat-87

/-- The digits of an escape, as far as there are any. The position stays at the last one. -/
def hexDigits : Nat → Ctx → Nat → Except Fault (Option Nat × Ctx)
  | 0, ctx, val => .ok (some val, ctx)
  | count+1, ctx, val => do
    let ctx ← advance ctx
    if isXDigit (peek ctx) then hexDigits count ctx (val*16 + hexValue (peek ctx))
    else return (none, ctx)

def addUtf8 (buf : Buffer) (val : Nat) : Except Fault Buffer :=
  if val<0x80 then buf.add (ofNat val)
  else if val<0x800 then do
    let buf ← buf.add (ofNat (0xC0 ||| val >>> 6))
    buf.add (ofNat (0x80 ||| val &&& 0x3F))
  else do
    let buf ← buf.add (ofNat (0xE0 ||| val >>> 12))
    let buf ← buf.add (ofNat (0x80 ||| val >>> 6 &&& 0x3F))
    buf.add (ofNat (0x80 ||| val &&& 0x3F))

def unescape (ch : UInt8) : Option UInt8 :=
  if ch=quote then some quote
  else if ch=backslash then some backslash
  else if ch=47 then some 47
  else if ch=98 then some 8
  else if ch=102 then some 12
  else if ch=110 then some newline
  else if ch=114 then some 13
  else if ch=116 then some 9
  else none

def escape (ctx : Ctx) (buf : Buffer) : Except Fault (Option Buffer × Ctx) :=
  match unescape (peek ctx) with
  | some c => do
    let buf ← buf.add c
    return (some buf, ctx)
  | none =>
    if peek ctx=117 then do
      let (val, ctx) ← hexDigits 4 ctx 0
      match val with
      | none => return (none, ctx)
      | some val =>
        let buf ← addUtf8 buf val
        return (some buf, ctx)
    else .ok (none, ctx)

/-- The loop of `string`, which ends at the closing quote or in an error. -/
def stringLoop : Nat → Ctx → Buffer → Except Fault (Option Buffer × Ctx)
  | 0, ctx, _ => .ok (none, ctx)
  | rounds+1, ctx, buf =>
    let ch := peek ctx
    if ch=0 then .ok (none, ctx)
    else if ch=quote then .ok (some buf, ctx)
    else if ch=backslash then do
      let ctx ← advance ctx
      let (buf, ctx) ← escape ctx buf
      match buf with
      | none => return (none, ctx)
      | some buf =>
        let ctx ← advance ctx
        stringLoop rounds ctx buf
    else do
      let buf ← buf.add ch
      let ctx ← advance ctx
      stringLoop rounds ctx buf

/-- `strdup` takes the bytes before a NUL, which an escape can put into the buffer. -/
def strdup (s : CString) : StringKey :=
  ⟨s.takeWhile (· ≠ 0),fun h => by simpa using List.mem_takeWhile_imp h⟩

def string (ctx : Ctx) : Except Fault (Option StringKey × Ctx) :=
  if peek ctx≠quote then .ok (none, ctx)
  else do
    let ctx ← advance ctx
    let (buf, ctx) ← stringLoop ctx.string.length ctx ⟨4,[]⟩
    match buf with
    | none => return (none, ctx)
    | some buf =>
      let ctx ← advance ctx
      return (some (strdup buf.tmp), ctx)

abbrev Parsed := Except Fault (Option Value × Ctx)

def literal (error : String) : CString → Value → Ctx → Parsed
  | [], out, ctx => .ok (some out, ctx)
  | ch::text, out, ctx =>
    if peek ctx≠ch then .ok (none, ctx.fail error)
    else do
      let ctx ← advance ctx
      literal error text out ctx

def boolean (ctx : Ctx) : Parsed :=
  let error := "Invalid literal while parsing bool"
  if peek ctx=116 then literal error [116, 114, 117, 101] (.bool true) ctx
  else literal error [102, 97, 108, 115, 101] (.bool false) ctx

def null (ctx : Ctx) : Parsed :=
  literal "Invalid literal while parsing null" [110, 117, 108, 108] .null ctx

def digitValue (c : UInt8) : Float := Float.ofNat (c.toNat-48)

/-- A loop over digits with a value that each of them changes. -/
def digitsLoop {α : Type} (step : α → UInt8 → α) : Nat → Ctx → α → Except Fault (α × Ctx)
  | 0, ctx, acc => .ok (acc, ctx)
  | rounds+1, ctx, acc =>
    if isDigit (peek ctx) then do
      let acc := step acc (peek ctx)
      let ctx ← advance ctx
      digitsLoop step rounds ctx acc
    else .ok (acc, ctx)

def digits {α : Type} (step : α → UInt8 → α) (ctx : Ctx) (acc : α) : Except Fault (α × Ctx) :=
  digitsLoop step ctx.string.length ctx acc

def decimalStep (value : Float) (c : UInt8) : Float := value*10 + digitValue c

/-- The part after a decimal point, with the multiplier of the next digit. -/
def fraction (ctx : Ctx) (value : Float) : Except Fault (Option Float × Ctx) :=
  if peek ctx≠46 then .ok (some value, ctx)
  else do
    let ctx ← advance ctx
    if !isDigit (peek ctx) then return (none, ctx.fail "Expected digit")
    let ((value, _), ctx) ← digits
      (fun (value, multiplier) c => (value+multiplier * digitValue c, multiplier*0.1)) ctx
      (value, 0.1)
    return (some value, ctx)

def exponent (ctx : Ctx) (value : Float) : Except Fault (Option Float × Ctx) :=
  if peek ctx≠101 ∧ peek ctx≠69 then .ok (some value, ctx)
  else do
    let ctx ← advance ctx
    let sign : Float := if peek ctx=45 then -1 else 1
    let ctx ← if peek ctx=43 ∨ peek ctx=45 then advance ctx else pure ctx
    if !isDigit (peek ctx) then return (none, ctx.fail "Expected digit")
    let (exp, ctx) ← digits decimalStep ctx 0
    return (some (value * Float.pow 10 (exp*sign)), ctx)

def number (ctx : Ctx) : Parsed := do
  let sign : Float := if peek ctx=45 then -1 else 1
  let ctx ← if peek ctx=45 then advance ctx else pure ctx
  if !isDigit (peek ctx) then return (none, ctx.fail "Expected digit")
  -- no digit may follow a leading 0
  let (value, ctx) ← if peek ctx=48 then (do return ((0 : Float), ← advance ctx))
    else digits decimalStep ctx 0
  let (value, ctx) ← fraction ctx value
  match value with
  | none => return (none, ctx)
  | some value =>
    let (value, ctx) ← exponent ctx value
    match value with
    | none => return (none, ctx)
    | some value => return (some (.number (value*sign)), ctx)

def white (result : Parsed) : Parsed := do
  let (out, ctx) ← result
  let ctx ← whitespace ctx
  return (out, ctx)

theorem ten_pos : 0<10 := by decide

mutual

def value : Nat → Ctx → Parsed
  | 0, _ => .error .rounds
  | rounds+1, ctx => do
    let ctx ← whitespace ctx
    let ch := peek ctx
    if ch=quote then white do
      let (out, ctx) ← string ctx
      return (out.map .string, ctx)
    else if ch=openBrace then white (object rounds ctx)
    else if ch=openBracket then white (array rounds ctx)
    else if ch=45 ∨ isDigit ch then white (number ctx)
    else if ch=116 ∨ ch=102 then white (boolean ctx)
    else if ch=110 then white (null ctx)
    else return (none, ctx.fail "Expected a value")

def array : Nat → Ctx → Parsed
  | 0, _ => .error .rounds
  | rounds+1, ctx =>
    if peek ctx≠openBracket then .ok (none, ctx)
    else do
      let ctx ← advance ctx
      let ctx ← whitespace ctx
      if peek ctx=closeBracket then
        let ctx ← advance ctx
        return (some (.array []), ctx)
      else arrayLoop rounds ctx []

def arrayLoop : Nat → Ctx → List Value → Parsed
  | 0, _, _ => .error .rounds
  | rounds+1, ctx, output => do
    let ctx ← whitespace ctx
    if peek ctx=closeBracket ∧ ctx.lenient then
      let ctx ← advance ctx
      return (some (.array output), ctx)
    else
      let (next, ctx) ← value rounds ctx
      match next with
      | none => return (none, ctx)
      | some next =>
        let output := output++[next]
        if peek ctx=closeBracket then
          let ctx ← advance ctx
          return (some (.array output), ctx)
        else if peek ctx≠comma then return (none, ctx.fail "Expected ,")
        else
          let ctx ← advance ctx
          arrayLoop rounds ctx output

def object : Nat → Ctx → Parsed
  | 0, _ => .error .rounds
  | rounds+1, ctx =>
    if peek ctx≠openBrace then .ok (none, ctx.fail "Expected \x7b (internal error)")
    else do
      let ctx ← advance ctx
      let output := hashmapCreate StringKey 10 ten_pos
      let ctx ← whitespace ctx
      if peek ctx=closeBrace then
        let ctx ← advance ctx
        return (some (.object output []), ctx)
      else objectLoop rounds ctx output []

def objectLoop : Nat → Ctx → Map StringKey → List Value → Parsed
  | 0, _, _, _ => .error .rounds
  | rounds+1, ctx, output, values => do
    let ctx ← whitespace ctx
    if peek ctx=closeBrace ∧ ctx.lenient then
      let ctx ← advance ctx
      return (some (.object output values), ctx)
    else
      let (s, ctx) ← string ctx
      match s with
      | none => return (none, ctx.fail "Expected string")
      | some s =>
        let ctx ← whitespace ctx
        if peek ctx≠colon then return (none, ctx.fail "Expected :")
        else
          let ctx ← advance ctx
          let (v, ctx) ← value rounds ctx
          match v with
          | none => return (none, ctx)
          | some v =>
            let values := values++[v]
            let output := (hashmapSet keyOps s values.length output).2
            if peek ctx=closeBrace then
              let ctx ← advance ctx
              return (some (.object output values), ctx)
            else if peek ctx≠comma then return (none, ctx.fail "Expected , or \x7b")
            else
              let ctx ← advance ctx
              objectLoop rounds ctx output values

end

def toaruJsonLenient : Nat := 1

/-- With the error for `json_lib_error`. -/
def jsonParseFlags (str : CString) (flags : Nat) : Except Fault (Option Value × Option String) := do
  let ctx : Ctx := ⟨str,0,none,flags &&& toaruJsonLenient≠0,0,0⟩
  let (out, ctx) ← value (2*str.length+1) ctx
  return (out, if out.isNone then ctx.error else none)

def jsonParse (str : CString) : Except Fault (Option Value × Option String) := jsonParseFlags str 0

def escapeByte (c : UInt8) : CString :=
  if c=quote ∨ c=backslash then [backslash, c]
  else if c=13 then [backslash, 114]
  else if c=newline then [backslash, 110]
  else if c=8 then [backslash, 98]
  else if c=12 then [backslash, 102]
  else if c=9 then [backslash, 116]
  else [c]

def jsonSerializeString (str : StringKey) : CString :=
  quote::(str.1.flatMap escapeByte++[quote])

def indentation (indent : Nat) : CString := List.replicate (2*indent) 32
abbrev Printer := Nat → Except Fault CString

def arrayItems (indent : Nat) : List Printer → Except Fault CString
  | [] => .ok []
  | node::arr => do
    let text ← node (indent+1)
    let rest ← arrayItems indent arr
    return indentation (indent+1)++text++(if arr=[] then [] else [comma, newline])++rest

/-- Fewer than two elements stay on the line. -/
def jsonSerializeArray (arr : List Printer) (indent : Nat) : Except Fault CString :=
  match arr with
  | [] => .ok [openBracket, closeBracket]
  | [node] => do
    let text ← node indent
    return openBracket::(text++[closeBracket])
  | arr => do
    let text ← arrayItems indent arr
    return openBracket::newline::(text++indentation indent++[closeBracket])

def objectGet {α : Type} (object : Map StringKey) (values : List α) (key : StringKey) : Option α :=
  match hashmapGet keyOps key object with
  | 0 => none
  | pointer+1 => values[pointer]?

def objectItems (indent : Nat) (object : Map StringKey) (values : List Printer) :
    Bool → List StringKey → Except Fault CString
  | printed, [] => .ok (if printed then [newline] else [])
  | printed, key::keys =>
    match objectGet object values key with
    | none => .error .nullPointer
    | some val => do
      let text ← val (indent+1)
      let rest ← objectItems indent object values true keys
      return (if printed then [comma, newline] else [])++indentation (indent+1) ++
        jsonSerializeString key++[colon, 32]++text++rest

def jsonSerializeObject (object : Map StringKey) (values : List Printer) (indent : Nat) :
    Except Fault CString := do
  let text ← objectItems indent object values false (hashmapKeys object)
  return openBrace::newline::(text++indentation indent++[closeBrace])

mutual

/-- `printDouble` is the text that `printf` has for `%f`. -/
def jsonSerialize (printDouble : Float → CString) : Value → Printer
  | .number number => fun _ => .ok (printDouble number)
  | .string string => fun _ => .ok (jsonSerializeString string)
  | .bool boolean => fun _ =>
    .ok (if boolean then [116, 114, 117, 101] else [102, 97, 108, 115, 101])
  | .null => fun _ => .ok [110, 117, 108, 108]
  | .array array => jsonSerializeArray (printers printDouble array)
  | .object object values => jsonSerializeObject object (printers printDouble values)

def printers (printDouble : Float → CString) : List Value → List Printer
  | [] => []
  | value::values => jsonSerialize printDouble value::printers printDouble values

end
end RazionOS.Lib.Json
