import Kyzo.Value.Arena

/-!
# Columns of codes and of words

The containers of the execution currency.  A column holds raw codes, or words that carry a code
when their value is out of line, under one container domain: an arena, an epoch and an extent past
every code inside.  Codes enter only through the write doors, which check stamps and grow the
extent; an observer admits the domain once and then reads every code without a check; a gather
carries a column into the next epoch through the remap of a seal.
-/

namespace Kyzo

/-! ## Domains -/

/-- The container domain (`Domain`). -/
structure Domain where
  /-- The arena of every code inside. -/
  arena : ℕ
  /-- The epoch of every code inside. -/
  epoch : ℕ
  /-- Past every code inside. -/
  extent : ℕ
  deriving DecidableEq, Repr

namespace Domain

def forObserver (o : Observer) : Domain := ⟨o.arena, o.epoch, 0⟩

def absorbStamp (d : Domain) (sc : StampedCode) : Except Denial Domain := do
  proveShared d.arena d.epoch sc.arena sc.epoch
  if u32Max ≤ sc.code then .error .extentOverflow
  else .ok ⟨d.arena, d.epoch, max d.extent (sc.code + 1)⟩

def admitTo (d : Domain) (o : Observer) : Except Denial Unit := do
  proveShared d.arena d.epoch o.arena o.epoch
  if o.view.len < d.extent then .error (.visibilityOverflow d.extent o.view.len) else .ok ()

end Domain

/-- `saturating_add(1)` of a `u32`. -/
def succSat (n : ℕ) : ℕ := min (n + 1) u32Max

/-! ## Code columns -/

/-- A column of raw codes (`CodeColumn`). -/
structure CodeColumn where
  domain : Domain
  codes : List ℕ
  deriving DecidableEq, Repr

/-- An admitted code column (`AdmittedCodes`): the codes and the observer they are read through. -/
structure AdmittedCodes where
  codes : List ℕ
  obs : Observer
  /-- Whether every code is sealed. -/
  allSealed : Bool

namespace CodeColumn

def newIn (o : Observer) : CodeColumn := ⟨.forObserver o, []⟩

variable (c : CodeColumn)

/-- `CodeColumn::push`: the answer and the column left behind. -/
def push (sc : StampedCode) : Except Denial Unit × CodeColumn :=
  match c.domain.absorbStamp sc with
  | .error e => (.error e, c)
  | .ok domain => (.ok (), ⟨domain, c.codes ++ [sc.code]⟩)

/-- `CodeColumn::admit`. -/
def admitCodes (o : Observer) : Except Denial AdmittedCodes := do
  c.domain.admitTo o
  .ok ⟨c.codes, o, c.domain.extent ≤ o.view.sealedLen⟩

def gather (remap : EpochRemap) : Except Denial CodeColumn := do
  proveShared c.domain.arena c.domain.epoch remap.arena remap.source
  let codes ← c.codes.mapM remap.applyRaw
  .ok ⟨⟨c.domain.arena, remap.target, codes.foldl (fun extent n => max extent (succSat n)) 0⟩,
    codes⟩

end CodeColumn

def AdmittedCodes.resolve (adm : AdmittedCodes) (i : ℕ) : Except Denial Bytes :=
  adm.obs.view.resolve (adm.codes.getD i 0)

/-! ## Words -/

def inlineMax : ℕ := 14

def lenOutOfLine : UInt8 := 0xFF

/-- The sixteen-byte cell (`Value`): tag byte, length byte and fourteen more. -/
structure Word where
  /-- Byte 0. -/
  tag : UInt8
  /-- Byte 1: the payload length, or the mark of an out-of-line value. -/
  len : UInt8
  /-- Bytes 2 to 15. -/
  rest : Bytes
  deriving DecidableEq, Repr

/-- A word beside the stamp of its code (`Minted`). -/
structure Minted where
  value : Word
  /-- The stamp, for a word out of line. -/
  stamp : Option StampedCode
  deriving DecidableEq, Repr

namespace Word

def mint (canonical : Bytes) (a : Arena) : Except Denial Minted × Arena :=
  match canonical with
  | [] => (.error .bookkeepingBroken, a)
  | tag :: payload =>
    if payload.length ≤ inlineMax then
      (.ok ⟨⟨tag, UInt8.ofNat payload.length,
        payload ++ List.replicate (inlineMax - payload.length) 0x00⟩, none⟩, a)
    else
      match a.intern canonical with
      | (.error e, a) => (.error e, a)
      | (.ok sc, a) =>
        (.ok ⟨⟨tag, lenOutOfLine, prefix4 canonical ++ beBytes 4 sc.code ++ List.replicate 6 0x00⟩,
          some sc⟩, a)

variable (w : Word)

def isInline : Bool := w.len ≠ lenOutOfLine

def inlineCanonical : Option Bytes :=
  if w.isInline then some (w.tag :: w.rest.take w.len.toNat) else none

/-- `Value::code`: the four big-endian bytes from byte 6 on. -/
def code : Option ℕ :=
  if w.isInline then none else some (beNat ((w.rest.drop 4).take 4))

def gathered (remap : EpochRemap) : Except Denial Word :=
  match w.code with
  | none => .ok w
  | some code => do
    let mapped ← remap.applyRaw code
    .ok { w with rest := w.rest.take 4 ++ beBytes 4 mapped ++ w.rest.drop 8 }

end Word

/-! ## Word columns -/

/-- A column of words (`WordColumn`). -/
structure WordColumn where
  domain : Domain
  words : List Word

/-- An admitted word column (`AdmittedWords`). -/
structure AdmittedWords where
  words : List Word
  obs : Observer

namespace WordColumn

def newIn (o : Observer) : WordColumn := ⟨.forObserver o, []⟩

/-- `WordColumn::push`: the answer and the column left behind. -/
def push (c : WordColumn) (m : Minted) : Except Denial Unit × WordColumn :=
  match m.stamp with
  | none =>
    if m.value.isInline then (.ok (), { c with words := c.words ++ [m.value] })
    else (.error .bookkeepingBroken, c)
  | some stamp =>
    if m.value.code ≠ some stamp.code then (.error .bookkeepingBroken, c)
    else
      match c.domain.absorbStamp stamp with
      | .error e => (.error e, c)
      | .ok domain => (.ok (), ⟨domain, c.words ++ [m.value]⟩)

/-- `WordColumn::admit`. -/
def admitWords (c : WordColumn) (o : Observer) : Except Denial AdmittedWords := do
  c.domain.admitTo o
  .ok ⟨c.words, o⟩

/-- The extent past the codes of gathered words. -/
def extentOf (words : List Word) : ℕ :=
  words.foldl (fun extent w =>
    match w.code with
    | some code => max extent (succSat code)
    | none => extent) 0

def gather (c : WordColumn) (remap : EpochRemap) : Except Denial WordColumn := do
  proveShared c.domain.arena c.domain.epoch remap.arena remap.source
  let words ← c.words.mapM fun w => w.gathered remap
  .ok ⟨⟨c.domain.arena, remap.target, extentOf words⟩, words⟩

end WordColumn

def AdmittedWords.canonical (adm : AdmittedWords) (i : ℕ) : Except Denial Bytes :=
  match adm.words[i]? with
  | none => .error .bookkeepingBroken
  | some w =>
    match w.inlineCanonical with
    | some bytes => .ok bytes
    | none =>
      match w.code with
      | none => .error .bookkeepingBroken
      | some code => adm.obs.view.resolve code

end Kyzo
