import Equational.Cbor.Item

/-!
# Reading items

Bytes are read into one item and what follows it.  Reading stops at the first
defect; the items around it are kept as far as they go.  At most 127 containers
(arrays, maps and tags) may be open at once.
-/

namespace Equational
namespace Cbor

/-- Bytes still to be read, and how many were read before them. -/
structure Source where
  offset : Nat
  bytes : List UInt8

/-- Something read, and what is left unless reading has to stop. -/
abbrev Reading (α : Type) := α × Option Source

namespace Source

/-- The first `count` bytes of a list and the others, if there are so many. -/
def splitBytes? : Nat → List UInt8 → Option (List UInt8 × List UInt8)
  | 0, bytes => some ([], bytes)
  | _ + 1, [] => none
  | count + 1, b :: bytes => (splitBytes? count bytes).map fun parts => (b :: parts.1, parts.2)

def take? (source : Source) (count : Nat) : Option (List UInt8 × Source) :=
  (splitBytes? count source.bytes).map fun parts =>
    (parts.1, ⟨source.offset + count, parts.2⟩)

/-- The number that bytes spell, most significant first. -/
def number (bytes : List UInt8) : Nat := bytes.foldl (fun n b => n * 256 + b.toNat) 0

def number? (source : Source) (count : Nat) : Except Defect (Nat × Source) :=
  match source.take? count with
  | some (bytes, rest) => .ok (number bytes, rest)
  | none => .error .endOfInput

/-- The number of a head, from the low bits of its first byte and the bytes behind it. -/
def argument (source : Source) (info : Nat) : Except Defect (Nat × Source) :=
  if info < 24 then .ok (info, source)
  else if info = 24 then source.number? 1
  else if info = 25 then source.number? 2
  else if info = 26 then source.number? 4
  else if info = 27 then source.number? 8
  else .error .syntaxError

end Source

def text? (bytes : List UInt8) : Option String := String.fromUTF8? ⟨bytes.toArray⟩

/-- The first byte of a head that leaves the length open. -/
def isOpen (info : Nat) : Bool := info == 31

namespace Item

def stop (defect : Defect) : Reading Item := (broken defect, none)

/-- The item of a string of bytes: the bytes themselves or the text that they encode. -/
def ofString (isText : Bool) (value : List UInt8) (rest : Source) : Reading Item :=
  if isText then
    match text? value with
    | some string => (text string, some rest)
    | none => stop .syntaxError
  else (bytes value, some rest)

def readString (isText : Bool) (length : Nat) (source : Source) : Reading Item :=
  if isText && Number.twoTo 64 ≤ source.offset + length then stop .syntaxError
  else
    match source.take? length with
    | some (value, rest) => ofString isText value rest
    | none => stop .endOfInput

/-- Reads the chunks of a string of open length, each of which is a string of the same
kind. -/
def readChunks (isText : Bool) : Nat → List UInt8 → Source → Reading Item
  | 0, _, _ => stop .endOfInput
  | fuel + 1, value, source =>
    match source.take? 1 with
    | some ([first], rest) =>
      let major := first.toNat / 32
      let info := first.toNat % 32
      if first = 0xff then ofString isText value rest
      else if major = (if isText then 3 else 2) then
        match rest.argument info with
        | .error defect => stop defect
        | .ok (length, rest) =>
          match rest.take? length with
          | some (chunk, rest) => readChunks isText fuel (value ++ chunk) rest
          | none => stop .endOfInput
      else stop .syntaxError
    | _ => stop .endOfInput

def readSimple (info : Nat) (source : Source) : Reading Item :=
  let float? (count : Nat) (widen : Nat → Number.Binary64) : Reading Item :=
    match source.number? count with
    | .ok (bits, rest) => (float (widen bits), some rest)
    | .error defect => stop defect
  if info = 20 then (boolean false, some source)
  else if info = 21 then (boolean true, some source)
  else if info = 22 then (null, some source)
  else if info = 23 then (undefined, some source)
  else if info = 25 then float? 2 (Number.Binary64.widen .half)
  else if info = 26 then float? 4 (Number.Binary64.widen .single)
  else if info = 27 then float? 8 fun bits => ⟨bits.toUInt64⟩
  else stop .syntaxError

def withArgument (source : Source) (info : Nat) (next : Nat → Source → Reading Item) :
    Reading Item :=
  match source.argument info with
  | .ok (n, rest) => next n rest
  | .error defect => stop defect

mutual

/-- Reads one item, with at most `depth` containers opened in it. -/
def read : Nat → Nat → Source → Reading Item
  | 0, _, _ => stop .endOfInput
  | fuel + 1, depth, source =>
    match source.take? 1 with
    | some ([first], rest) =>
      let major := first.toNat / 32
      let info := first.toNat % 32
      if major = 0 then withArgument rest info fun n rest => (unsigned n, some rest)
      else if major = 1 then withArgument rest info fun n rest => (negative n, some rest)
      else if major = 2 ∨ major = 3 then
        if isOpen info then readChunks (major == 3) fuel [] rest
        else withArgument rest info (readString (major == 3))
      else if major = 4 then
        if isOpen info then
          match depth with
          | 0 => stop .syntaxError
          | depth + 1 =>
            let (items, isCut, rest?) := readOpen fuel depth false rest
            (array items isCut, rest?)
        else withArgument rest info fun n rest =>
          match depth with
          | 0 => stop .syntaxError
          | depth + 1 =>
            let (items, rest?) := readList fuel depth n rest
            (array items false, rest?)
      else if major = 5 then
        if isOpen info then
          match depth with
          | 0 => stop .syntaxError
          | depth + 1 =>
            let (items, isCut, rest?) := readOpen fuel depth true rest
            (map false items isCut, rest?)
        else withArgument rest info fun n rest =>
          match depth with
          | 0 => stop .syntaxError
          | depth + 1 =>
            let (items, rest?) := readList fuel depth (2 * n) rest
            (map (info == 1) items false, rest?)
      else if major = 6 then withArgument rest info fun _ rest =>
        match depth with
        | 0 => stop .syntaxError
        | depth + 1 =>
          let (item, rest?) := read fuel depth rest
          (tagged item, rest?)
      else readSimple info rest
    | _ => stop .endOfInput

def readList : Nat → Nat → Nat → Source → Reading (List Item)
  | _, _, 0, source => ([], some source)
  | 0, _, _ + 1, _ => ([broken .endOfInput], none)
  | fuel + 1, depth, count + 1, source =>
    match read fuel depth source with
    | (item, none) => ([item], none)
    | (item, some rest) =>
      let (items, rest?) := readList fuel depth count rest
      (item :: items, rest?)

/-- Reads items up to the end mark.  In a map the mark may stand only in the place of a key,
so that a value follows every key.  Tells whether the mark was missing. -/
def readOpen : Nat → Nat → Bool → Source → List Item × Bool × Option Source
  | 0, _, _, _ => ([], true, none)
  | fuel + 1, depth, inPairs, source =>
    match source.bytes with
    | [] => ([], true, none)
    | first :: others =>
      if first = 0xff then ([], false, some ⟨source.offset + 1, others⟩)
      else
        match read fuel depth source with
        | (item, none) => ([item], false, none)
        | (item, some rest) =>
          if inPairs then
            match read fuel depth rest with
            | (value, none) => ([item, value], false, none)
            | (value, some rest) =>
              let (items, isCut, rest?) := readOpen fuel depth inPairs rest
              (item :: value :: items, isCut, rest?)
          else
            let (items, isCut, rest?) := readOpen fuel depth inPairs rest
            (item :: items, isCut, rest?)

end

/-- How many containers may be open at once. -/
def nestingLimit : Nat := 127

/-- Reads the item at the front of some bytes.  No path of the reader is longer than two
steps per byte. -/
def ofBytes (bytes : List UInt8) : Reading Item :=
  read (2 * bytes.length + 2) nestingLimit ⟨0, bytes⟩

end Item

end Cbor
end Equational
