import TriShare.Json.Basic
import TriShare.Text.Hex
/-!
Reading JSON text one character at a time. The state is a stack of the containers that are still
open and the mode of reading inside the innermost one, so a text is read by a single left fold.

The fields of the outermost object that the caller has no use for are skipped: their text has to be
grammatical, but its nesting, the range of its numbers and the pairing of its escapes are not
looked at.
-/

namespace TriShare.Json.Reader

/-- An open container with a value missing, its contents so far in reverse. -/
inductive Frame
  | items (done : List Json)
  | field (done : List (String × Json)) (name : String)

/-- What a string is read for: as a value, or as the name of the next field of an object. -/
inductive Role
  | value
  | name (done : List (String × Json))

/-- Where in an escape of a string the reading stands. -/
inductive Escape
  | outside
  | begun
  | digits (missing : Nat) (value : Nat)

/-- What is read next. -/
inductive Mode
  /-- A value, or the end of an empty array where `mayClose` says so. -/
  | value (mayClose : Bool)
  /-- The name of a field, or the end of an empty object where `mayClose` says so. -/
  | name (done : List (String × Json)) (mayClose : Bool)
  | colon (done : List (String × Json)) (name : String)
  | afterItem (done : List Json)
  | afterField (done : List (String × Json))
  | text (role : Role) (units : List Nat) (escape : Escape)
  | number (literal : List Char)
  | word (rest : List Char) (meaning : Json)
  | finished (v : Json)

/-- The state between two characters. -/
structure State where
  stack : List Frame
  mode : Mode

def start : State := ⟨[], .value false⟩

def isSpace (c : Char) : Bool := c == ' ' || c == '\t' || c == '\n' || c == '\r'

/-- Whether the innermost value belongs to a field of the outermost object that is skipped. -/
def skips (known : String → Bool) (stack : List Frame) : Bool :=
  match stack.getLast? with
  | some (.field _ name) => !known name
  | _ => false

/-- Whether one more container may be opened. -/
def mayOpen (known : String → Bool) (stack : List Frame) : Bool :=
  stack.length < maxDepth || skips known stack

/-- Puts a finished value where it belongs. -/
def complete (known : String → Bool) (v : Json) : List Frame → State
  | [] => ⟨[], .finished v⟩
  | .items done :: stack => ⟨stack, .afterItem (v :: done)⟩
  | [.field done name] => ⟨[], .afterField (if known name then (name, v) :: done else done)⟩
  | .field done name :: stack => ⟨stack, .afterField ((name, v) :: done)⟩

/-! ### Strings -/

def isLead (u : Nat) : Bool := 0xD800 ≤ u && u ≤ 0xDBFF

def isTrail (u : Nat) : Bool := 0xDC00 ≤ u && u ≤ 0xDFFF

/-- The characters of a string, two surrogates in a row making one; a single one makes none. -/
def charsOf : List Nat → Option (List Char)
  | [] => some []
  | [u] => if isLead u || isTrail u then none else some [Char.ofNat u]
  | u :: t :: rest =>
    if isLead u then
      if isTrail t then
        (charsOf rest).map (Char.ofNat (0x10000 + (u - 0xD800) * 0x400 + (t - 0xDC00)) :: ·)
      else none
    else if isTrail u then none
    else (charsOf (t :: rest)).map (Char.ofNat u :: ·)

/-- The code unit of a character after a backslash. -/
def escaped? : Char → Option Nat
  | '"' => some 0x22
  | '\\' => some 0x5C
  | '/' => some 0x2F
  | 'b' => some 0x08
  | 'f' => some 0x0C
  | 'n' => some 0x0A
  | 'r' => some 0x0D
  | 't' => some 0x09
  | _ => none

/-- The string ends: it becomes a value or a field's name. -/
def endText (known : String → Bool) (stack : List Frame) (role : Role) (units : List Nat) :
    Option State :=
  let text := (charsOf units.reverse).map String.ofList
  let text := if skips known stack then some (text.getD "") else text
  match role with
  | .value => text.map fun s => complete known (.string s) stack
  | .name done => text.map fun s => ⟨stack, .colon done s⟩

/-- One character of a string. -/
def stepText (known : String → Bool) (stack : List Frame) (role : Role) (units : List Nat)
    (escape : Escape) (c : Char) : Option State :=
  match escape with
  | .outside =>
    if c == '"' then endText known stack role units
    else if c == '\\' then some ⟨stack, .text role units .begun⟩
    else if c.toNat < 0x20 then none
    else some ⟨stack, .text role (c.toNat :: units) .outside⟩
  | .begun =>
    if c == 'u' then some ⟨stack, .text role units (.digits 4 0)⟩
    else (escaped? c).map fun u => ⟨stack, .text role (u :: units) .outside⟩
  | .digits missing value =>
    (Hex.value? c).map fun d =>
      let value := 16 * value + d
      if missing ≤ 1 then ⟨stack, .text role (value :: units) .outside⟩
      else ⟨stack, .text role units (.digits (missing - 1) value)⟩

/-! ### Numbers -/

def isNumberChar (c : Char) : Bool :=
  (Decimal.digit? c).isSome || c == '-' || c == '+' || Decimal.isPoint c
    || Decimal.isExponentMark c

/-- Digits that stand for an integer: at least one, and no zero before others. -/
def isWhole : List Char → Bool
  | [] => false
  | ['0'] => true
  | c :: cs => c != '0' && (Decimal.digits? (c :: cs)).isSome

/-- The grammar of a number. -/
def isLiteral (literal : List Char) : Bool :=
  let magnitude := match literal with
    | '-' :: cs => cs
    | cs => cs
  let (mantissa, power) := Decimal.cut Decimal.isExponentMark magnitude
  let (whole, fraction) := Decimal.cut Decimal.isPoint mantissa
  isWhole whole
    && (match fraction with
      | none => true
      | some cs => !cs.isEmpty && (Decimal.digits? cs).isSome)
    && (Decimal.exponent? power).isSome

/-- The number ends. -/
def endNumber (known : String → Bool) (stack : List Frame) (literal : List Char) : Option State :=
  let literal := literal.reverse
  if !isLiteral literal then none
  else if skips known stack then some (complete known .null stack)
  else (Number.ofLiteral? literal).map fun n => complete known (.number n) stack

/-! ### Structure -/

/-- The first character of a value. -/
def stepValue (known : String → Bool) (stack : List Frame) (mayClose : Bool) (c : Char) :
    Option State :=
  match c with
  | '[' => if mayOpen known stack then some ⟨.items [] :: stack, .value true⟩ else none
  | '{' => if mayOpen known stack then some ⟨stack, .name [] true⟩ else none
  | '"' => some ⟨stack, .text .value [] .outside⟩
  | 't' => some ⟨stack, .word ['r', 'u', 'e'] (.bool true)⟩
  | 'f' => some ⟨stack, .word ['a', 'l', 's', 'e'] (.bool false)⟩
  | 'n' => some ⟨stack, .word ['u', 'l', 'l'] .null⟩
  | ']' =>
    match mayClose, stack with
    | true, .items [] :: stack => some (complete known (.array []) stack)
    | _, _ => none
  | c =>
    if c == '-' || (Decimal.digit? c).isSome then some ⟨stack, .number [c]⟩ else none

/-- A character outside of strings, numbers and words. -/
def stepBetween (known : String → Bool) (s : State) (c : Char) : Option State :=
  if isSpace c then some s
  else
    match s.mode with
    | .value mayClose => stepValue known s.stack mayClose c
    | .name done mayClose =>
      if c == '"' then some ⟨s.stack, .text (.name done) [] .outside⟩
      else if c == '}' && mayClose then some (complete known (.object []) s.stack)
      else none
    | .colon done name =>
      if c == ':' then some ⟨.field done name :: s.stack, .value false⟩ else none
    | .afterItem done =>
      if c == ',' then some ⟨.items done :: s.stack, .value false⟩
      else if c == ']' then some (complete known (.array done.reverse) s.stack)
      else none
    | .afterField done =>
      if c == ',' then some ⟨s.stack, .name done false⟩
      else if c == '}' then some (complete known (.object done.reverse) s.stack)
      else none
    | _ => none

/-- One character of the text. -/
def step (known : String → Bool) (s : State) (c : Char) : Option State :=
  match s.mode with
  | .text role units escape => stepText known s.stack role units escape c
  | .number literal =>
    if isNumberChar c then some ⟨s.stack, .number (c :: literal)⟩
    else (endNumber known s.stack literal).bind fun s => stepBetween known s c
  | .word (w :: rest) meaning =>
    if c != w then none
    else if rest.isEmpty then some (complete known meaning s.stack)
    else some ⟨s.stack, .word rest meaning⟩
  | _ => stepBetween known s c

/-- The document, if it is complete at the end of the text. -/
def finish (known : String → Bool) (s : State) : Option Json :=
  match s.mode with
  | .finished v => some v
  | .number literal =>
    match endNumber known s.stack literal with
    | some ⟨_, .finished v⟩ => some v
    | _ => none
  | _ => none

end Reader

/-- Reads a document, skipping the fields of the outermost object whose names are not known. -/
def readKnown? (known : String → Bool) (text : String) : Option Json :=
  (text.toList.foldlM (Reader.step known) Reader.start).bind (Reader.finish known)

/-- Reads a document. -/
def read? (text : String) : Option Json := readKnown? (fun _ => true) text

end TriShare.Json
