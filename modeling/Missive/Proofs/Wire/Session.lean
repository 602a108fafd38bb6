import Missive.Message.Primitive
import Missive.Proofs.Reading

/-!
# Missive.Proofs.Wire.Session

The calls of the binary reader, made one after another.

A session makes calls in any order on one reader.  A call that fails leaves a reader as well, and
the calls after it go on from there.
-/

namespace Missive.Wire

/-- The calls that a reader takes. -/
inductive Call where
  | isFinished
  | beginObject
  | endObject
  | beginArray
  | endArray
  | hasNext
  | nextName
  | skipValue
  | skipRemaining
  | typeId
  | value (type : Primitive)
  deriving DecidableEq

/-- What comes of a call. -/
inductive Reply where
  | done
  | flag (b : Bool)
  | number (n : UInt32)
  | scalar (s : Scalar)
  deriving DecidableEq

/-- Make a call. -/
def Call.make : Call → Read Reply
  | .isFinished => return .flag (← get).isFinished
  | .beginObject => do Read.beginObject; return .done
  | .endObject => do Read.endObject; return .done
  | .beginArray => do Read.beginArray; return .done
  | .endArray => do Read.endArray; return .done
  | .hasNext => return .flag (← Read.hasNext)
  | .nextName => return .number (← Read.nextName)
  | .skipValue => do Read.skipValue; return .done
  | .skipRemaining => do Read.skipRemaining; return .done
  | .typeId => return .number (← Read.typeId)
  | .value type => return .scalar (← type.read)

/-- What comes of calls, each with the reader that it leaves. -/
def session : List Call → Reader → List (Except ReadError Reply × Reader)
  | [], _ => []
  | call :: calls, r =>
    let result := call.make r
    (outcome result, left result) :: session calls (left result)

end Missive.Wire
