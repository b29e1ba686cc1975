/-!
Why a character could not be read: the device failed, or its bytes are not UTF-8.
-/

namespace TokenGrammar

inductive DeviceErrorKind where
  | brokenPipe
  | permissionDenied
  | invalidData
  | unexpectedEnd
  | isDirectory
  | interrupted
  | other
  deriving DecidableEq, Repr, Inhabited

structure DeviceError where
  kind : DeviceErrorKind
  message : String
  deriving DecidableEq, Repr, Inhabited

inductive ReadError where
  | device (error : DeviceError)
  | badLead (byte : UInt8)
  | badSequence (valid : Nat)
  | truncated
  deriving DecidableEq, Repr, Inhabited

namespace ReadError

def kind : ReadError → DeviceErrorKind
  | device error => error.kind
  | badLead _ => .invalidData
  | badSequence _ => .invalidData
  | truncated => .unexpectedEnd

def hexByte (byte : UInt8) : String :=
  String.ofList [Nat.digitChar (byte.toNat / 16), Nat.digitChar (byte.toNat % 16)]

def message : ReadError → String
  | device error => error.message
  | badLead byte => "invalid UTF-8 lead byte 0x" ++ hexByte byte
  | badSequence valid => "invalid utf-8 sequence of " ++ valid.repr ++ " bytes from index 0"
  | truncated => "truncated UTF-8 sequence"

end ReadError

end TokenGrammar
