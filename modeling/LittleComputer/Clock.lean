import LittleComputer.Text

/-!
# Time stamps

The time of day of a moment that is given in seconds and microseconds. There is no date.
-/

namespace LittleComputer

/-- A moment, counted from the beginning of an arbitrary day. -/
structure Moment where
  seconds : Int
  microseconds : Int
  deriving Inhabited

/-- Hours, minutes, seconds and thousandths. The thousandths are cut and not rounded, and they are
not brought into range. -/
def Moment.timeOfDay (m : Moment) : Text :=
  let second := (m.seconds.emod 86400).toNat
  let two (n : Nat) : Text := (Text.decimal n).leftpad 2 Byte.zeroDigit
  two (second / 3600) ++ ":" ++ two (second / 60 % 60) ++ ":" ++ two (second % 60) ++ "." ++
    Text.integerFilled 3 (m.microseconds.tdiv 1000)

end LittleComputer
