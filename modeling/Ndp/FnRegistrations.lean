import Ndp.RustStd

/-! The table of registered native functions. A slot holds the address of its function,
or zero. -/
namespace Ndp

abbrev FnSlotId := UInt32

structure FnRegistrations where
  slots : List UInt64
  deriving DecidableEq, Repr

namespace FnRegistrations

def withMaxRegistrations (maxRegistrations : FnSlotId) : FnRegistrations :=
  ⟨List.replicate maxRegistrations.toNat 0⟩

def setHandler (fns : FnRegistrations) (slot : FnSlotId) (handler : UInt64) : Except Panic FnRegistrations :=
  if fns.slots.length ≤ slot.toNat then .error (.explicit "Function slot out of range")
  else .ok ⟨fns.slots.set slot.toNat handler⟩

def handlerAt (fns : FnRegistrations) (slot : FnSlotId) : Except Panic (Option UInt64) :=
  match fns.slots[slot.toNat]? with
  | none => .error .indexOutOfBounds
  | some handler => .ok (if handler = 0 then none else some handler)

end FnRegistrations

end Ndp
