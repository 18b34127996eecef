import Mvcc.Json.Shape
import Mvcc.Transaction.Status

/-!
# Names and stages as JSON
-/

namespace Mvcc

open Json

namespace TxnId

def toJson (id : TxnId) : Value := .ofWord id.number

def ofJson? (v : Value) : Option TxnId := v.word?.map mk

end TxnId

namespace Status

def toJson (s : Status) : Value := .ofText s.name

def ofJson? (v : Value) : Option Status := v.oneOf? all name

end Status

end Mvcc
