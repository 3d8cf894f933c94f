import DataCrystal.Lib.Digits

/-!
# Dates, Times and Their Text

The date and time values of the host language without an instant of their own, and
the text they are written as. A fraction of a second and the seconds of an offset
are written only when they are not zero, so the reader decides on what it finds.

An offset is strictly between minus and plus one day. It is written as sign, hours
and minutes, and its sign is that of the whole offset.

## Main definitions

* `Date`, `Clock`, `Offset`: The parts, which cannot be out of range.
* `Time`, `NaiveDatetime`: A time of day, perhaps with an offset; a date and time
  without one.
* `isoformat`, `fromisoformat` of each: To text and back.

## Theorems

* `Date.fromisoformat_isoformat`, `Time.fromisoformat_isoformat`,
  `NaiveDatetime.fromisoformat_isoformat`: What is written is read back.
-/

namespace DataCrystal

def isLeap (year : Nat) : Bool := year % 4 = 0 && (year % 100 ≠ 0 || year % 400 = 0)

def daysInMonth (year month : Nat) : Nat :=
  if month = 2 then (if isLeap year then 29 else 28)
  else if month = 4 ∨ month = 6 ∨ month = 9 ∨ month = 11 then 30
  else 31

/-- A day of the calendar. -/
structure Date where
  year : Nat
  month : Nat
  day : Nat
  valid : (1 ≤ year ∧ year ≤ 9999) ∧ (1 ≤ month ∧ month ≤ 12) ∧
    1 ≤ day ∧ day ≤ daysInMonth year month
  deriving DecidableEq

/-- A time of day to the microsecond. -/
structure Clock where
  hour : Nat
  minute : Nat
  second : Nat
  microsecond : Nat
  valid : hour < 24 ∧ minute < 60 ∧ second < 60 ∧ microsecond < 1000000
  deriving DecidableEq

def microsPerDay : Nat := 86400000000

/-- A distance from universal time, in microseconds. -/
structure Offset where
  micros : ℤ
  valid : micros.natAbs < microsPerDay
  deriving DecidableEq

/-- Universal time. -/
def utc : Offset := ⟨0, by decide⟩

structure Time where
  clock : Clock
  offset : Option Offset
  deriving DecidableEq

structure NaiveDatetime where
  date : Date
  clock : Clock
  deriving DecidableEq

/-- A fraction of a second, if there is one. -/
def fraction (micros : Nat) : Text := if micros = 0 then [] else '.' :: pad 6 micros

def readFraction : Text → Option (Nat × Text)
  | [] => some (0, [])
  | c :: cs => if c = '.' then takeDigits 6 cs else some (0, c :: cs)

namespace Date

def text (d : Date) : Text := pad 4 d.year ++ '-' :: (pad 2 d.month ++ '-' :: pad 2 d.day)

def isoformat (d : Date) : Text := d.text

/-- The date a text starts with. -/
def read (cs : Text) : Option (Date × Text) := do
  let (year, cs) ← takeDigits 4 cs
  let cs ← skip '-' cs
  let (month, cs) ← takeDigits 2 cs
  let cs ← skip '-' cs
  let (day, cs) ← takeDigits 2 cs
  -- The structure takes no day its month does not have.
  if h : (1 ≤ year ∧ year ≤ 9999) ∧ (1 ≤ month ∧ month ≤ 12) ∧
      1 ≤ day ∧ day ≤ daysInMonth year month then
    some (⟨year, month, day, h⟩, cs)
  else none

def fromisoformat (cs : Text) : Option Date :=
  match read cs with
  | some (d, []) => some d
  | _ => none

end Date

namespace Clock

def text (c : Clock) : Text :=
  pad 2 c.hour ++ ':' :: (pad 2 c.minute ++ ':' :: (pad 2 c.second ++ fraction c.microsecond))

/-- The time of day a text starts with. -/
def read (cs : Text) : Option (Clock × Text) := do
  let (hour, cs) ← takeDigits 2 cs
  let cs ← skip ':' cs
  let (minute, cs) ← takeDigits 2 cs
  let cs ← skip ':' cs
  let (second, cs) ← takeDigits 2 cs
  let (microsecond, cs) ← readFraction cs
  -- Nor a time its clock does not show.
  if h : hour < 24 ∧ minute < 60 ∧ second < 60 ∧ microsecond < 1000000 then
    some (⟨hour, minute, second, microsecond, h⟩, cs)
  else none

end Clock

namespace Offset

/-- The seconds of an offset, if there are any. -/
def secondsText (micros : Nat) : Text :=
  if micros % 60000000 = 0 then []
  else ':' :: (pad 2 (micros / 1000000 % 60) ++ fraction (micros % 1000000))

def text (o : Offset) : Text :=
  (if o.micros < 0 then '-' else '+') :: (pad 2 (o.micros.natAbs / 3600000000) ++
    ':' :: (pad 2 (o.micros.natAbs / 60000000 % 60) ++ secondsText o.micros.natAbs))

def readSeconds : Text → Option Nat
  | [] => some 0
  | cs => do
    let cs ← skip ':' cs
    let (second, cs) ← takeDigits 2 cs
    let (micros, cs) ← readFraction cs
    if cs = [] then some (second * 1000000 + micros) else none

def read (cs : Text) : Option Offset :=
  match cs with
  | [] => none
  | sign :: cs => do
    let (hour, cs) ← takeDigits 2 cs
    let cs ← skip ':' cs
    let (minute, cs) ← takeDigits 2 cs
    let rest ← readSeconds cs
    let micros : ℤ := hour * 3600000000 + minute * 60000000 + rest
    -- Any other sign is a plus.
    let signed := if sign = '-' then -micros else micros
    if h : signed.natAbs < microsPerDay then some ⟨signed, h⟩ else none

end Offset

namespace Time

def isoformat (t : Time) : Text :=
  t.clock.text ++ match t.offset with
    | none => []
    | some o => o.text

def fromisoformat (cs : Text) : Option Time :=
  match Clock.read cs with
  | none => none
  | some (clock, []) => some ⟨clock, none⟩
  | some (clock, rest) => (Offset.read rest).map fun o => ⟨clock, some o⟩

end Time

namespace NaiveDatetime

def isoformat (d : NaiveDatetime) : Text := d.date.text ++ 'T' :: d.clock.text

def fromisoformat (cs : Text) : Option NaiveDatetime :=
  match Date.read cs with
  | none => none
  | some (date, cs) =>
    match skip 'T' cs with
    | none => none
    | some cs =>
      match Clock.read cs with
      -- A text behind the time is not a naive datetime.
      | some (clock, []) => some ⟨date, clock⟩
      | _ => none

end NaiveDatetime

section RoundTrips

theorem daysInMonth_le (year month : Nat) : daysInMonth year month ≤ 31 := by
  unfold daysInMonth
  split_ifs <;> omega

/-- A fraction is read back, before anything that starts with no point. -/
theorem readFraction_append {micros : Nat} (h : micros < 1000000) {rest : Text}
    (hrest : ∀ c ∈ rest.head?, c ≠ '.') :
    readFraction (fraction micros ++ rest) = some (micros, rest) := by
  by_cases hzero : micros = 0
  · rw [fraction, if_pos hzero, List.nil_append, hzero]
    cases rest with
    | nil => rfl
    | cons c cs => rw [readFraction, if_neg (hrest c rfl)]
  · rw [fraction, if_neg hzero, List.cons_append, readFraction, if_pos rfl]
    exact takeDigits_pad h rest

theorem Date.read_text (d : Date) (rest : Text) : Date.read (d.text ++ rest) = some (d, rest) := by
  rcases d with ⟨year, month, day, hvalid⟩
  have hday := daysInMonth_le year month
  rcases hvalid with ⟨⟨hy, hy'⟩, ⟨hm, hm'⟩, hd, hd'⟩
  have hvalid : (1 ≤ year ∧ year ≤ 9999) ∧ (1 ≤ month ∧ month ≤ 12) ∧
    1 ≤ day ∧ day ≤ daysInMonth year month := ⟨⟨hy, hy'⟩, ⟨hm, hm'⟩, hd, hd'⟩
  unfold Date.read Date.text
  simp only [List.append_assoc, List.cons_append, Option.bind_eq_bind]
  rw [takeDigits_pad (by omega), Option.bind_some]
  simp only [skip_cons, Option.bind_some]
  rw [takeDigits_pad (by omega), Option.bind_some]
  simp only [skip_cons, Option.bind_some]
  rw [takeDigits_pad (by omega), Option.bind_some]
  simp only [dif_pos hvalid]

theorem Date.fromisoformat_isoformat (d : Date) : Date.fromisoformat d.isoformat = some d := by
  have hread := Date.read_text d []
  rw [List.append_nil] at hread
  rw [Date.fromisoformat, Date.isoformat, hread]

theorem Clock.read_text (c : Clock) {rest : Text} (hrest : ∀ x ∈ rest.head?, x ≠ '.') :
    Clock.read (c.text ++ rest) = some (c, rest) := by
  rcases c with ⟨hour, minute, second, microsecond, hvalid⟩
  unfold Clock.read Clock.text
  simp only [List.append_assoc, List.cons_append, Option.bind_eq_bind]
  rw [takeDigits_pad (by omega), Option.bind_some]
  simp only [skip_cons, Option.bind_some]
  rw [takeDigits_pad (by omega), Option.bind_some]
  simp only [skip_cons, Option.bind_some]
  rw [takeDigits_pad (by omega), Option.bind_some]
  simp only [readFraction_append hvalid.2.2.2 hrest, Option.bind_some, dif_pos hvalid]

/-- The seconds of an offset are what its minutes leave. -/
theorem Offset.readSeconds_text (micros : Nat) :
    Offset.readSeconds (Offset.secondsText micros) = some (micros % 60000000) := by
  unfold Offset.secondsText
  by_cases hzero : micros % 60000000 = 0
  · rw [if_pos hzero, hzero]
    rfl
  · have hsecond : micros / 1000000 % 60 < 10 ^ 2 := by omega
    have hmicros : micros % 1000000 < 1000000 := by omega
    have hread := @readFraction_append _ hmicros [] (by simp)
    rw [List.append_nil] at hread
    have hsum : micros / 1000000 % 60 * 1000000 + micros % 1000000 = micros % 60000000 := by omega
    rw [if_neg hzero, Offset.readSeconds]
    · simp only [skip_cons, Option.bind_eq_bind, Option.bind_some, takeDigits_pad hsecond, hread,
        if_true, hsum]
    · simp

theorem Offset.read_text (o : Offset) : Offset.read o.text = some o := by
  rcases o with ⟨micros, hvalid⟩
  have hbound : micros.natAbs < 86400000000 := hvalid
  have hhour : micros.natAbs / 3600000000 < 10 ^ 2 := by omega
  have hminute : micros.natAbs / 60000000 % 60 < 10 ^ 2 := by omega
  unfold Offset.read Offset.text
  simp only [Option.bind_eq_bind]
  rw [takeDigits_pad hhour, Option.bind_some]
  simp only [skip_cons, Option.bind_some]
  rw [takeDigits_pad hminute, Option.bind_some]
  simp only [Offset.readSeconds_text, Option.bind_some]
  -- Hours, minutes and the rest add up to the distance, and the sign gives it back.
  have hsum : ((micros.natAbs / 3600000000 : ℕ) : ℤ) * 3600000000 +
      ((micros.natAbs / 60000000 % 60 : ℕ) : ℤ) * 60000000 +
      ((micros.natAbs % 60000000 : ℕ) : ℤ) = (micros.natAbs : ℤ) := by omega
  have hsign : (if (if micros < 0 then '-' else '+') = '-' then -(micros.natAbs : ℤ)
      else (micros.natAbs : ℤ)) = micros := by
    by_cases hneg : micros < 0
    · rw [if_pos hneg, if_pos rfl]
      omega
    · rw [if_neg hneg, if_neg (by decide)]
      omega
  rw [hsum]
  simp only [hsign, dif_pos hvalid]

theorem Offset.text_head (o : Offset) : ∀ x ∈ o.text.head?, x ≠ '.' := by
  intro x hx
  unfold Offset.text at hx
  split_ifs at hx
  · cases hx
    decide
  · cases hx
    decide

theorem Time.fromisoformat_isoformat (t : Time) : Time.fromisoformat t.isoformat = some t := by
  rcases t with ⟨clock, offset⟩
  cases offset with
  | none =>
      have hread := @Clock.read_text clock [] (by simp)
      rw [Time.fromisoformat, Time.isoformat, hread]
  | some o =>
      have hread := Clock.read_text clock (Offset.text_head o)
      rw [Time.fromisoformat, Time.isoformat, hread]
      -- A text that starts with a sign is not empty.
      have hcons : ∃ c cs, o.text = c :: cs := ⟨_, _, rfl⟩
      rcases hcons with ⟨c, cs, htext⟩
      rw [htext]
      simp only [← htext, Offset.read_text, Option.map_some]

theorem NaiveDatetime.fromisoformat_isoformat (d : NaiveDatetime) :
    NaiveDatetime.fromisoformat d.isoformat = some d := by
  rcases d with ⟨date, clock⟩
  have hclock := @Clock.read_text clock [] (by simp)
  rw [List.append_nil] at hclock
  rw [NaiveDatetime.fromisoformat, NaiveDatetime.isoformat, Date.read_text]
  simp only [skip_cons, hclock]

end RoundTrips

end DataCrystal
