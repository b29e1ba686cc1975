import TokenGrammar.ReadError

/-!
Writing a text to a device that may run out of room.
-/

namespace TokenGrammar.Output

def full : DeviceError :=
  { kind := .other, message := "sink is full" }

/--
Writes a text to a device that takes at most `room` bytes, or any number of them if no room is given. The
bytes that the device took are returned in any case.
-/
def write (room : Option Nat) (text : String) : Except DeviceError Unit × ByteArray :=
  match room with
  | none => (.ok (), text.toUTF8)
  | some room =>
    if text.utf8ByteSize ≤ room then (.ok (), text.toUTF8)
    else (.error full, text.toUTF8.extract 0 room)

end TokenGrammar.Output
