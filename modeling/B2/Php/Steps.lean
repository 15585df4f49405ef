import B2.Php.Rules

/-!
# What the bindings write

The log, the state and the value of the calls of the bindings, where they are the
same for every state: the wrapping of a scalar, the check of a call, and the call
of an operation on variants up to the count of its result.
-/

namespace B2

open Effect.Traced (Sat sat_bind sat_pure sat_tell sat_get sat_modify sat_throw)

namespace PHPBindings

variable {B : IRBuilder} {s : Codegen} {E : List IRAction → Codegen → Failure → Prop}

/-- The function that wraps a scalar. -/
def wrapperOf (type : IRType) : RuntimeFunction :=
  if type.isFloatingPoint then .setZvalDouble
  else if type = .int1 then .setZvalBool
  else if type = .int64 then .setZvalInt
  else .setZvalStringNocopy

theorem sat_getWrappingFunction {t : IRType} (ht : t.IsScalar)
    {Q : List IRAction → Codegen → RuntimeFunction → Prop} :
    Sat (getWrappingFunction t) s Q E ↔ Q [] s (wrapperOf t) := by
  rcases ht with rfl | rfl | rfl | rfl <;> rfl

/-- The `zval` that a scalar is wrapped in. -/
def wrapped (s : Codegen) : Value := .instruction s.next .variant

/-- The state after a scalar was wrapped. -/
def withWrapped (s : Codegen) : Codegen := withCount (Gen.bump (Gen.bump s)) (wrapped s) (-1)

def wrapLog (s : Codegen) (v : Value) : List IRAction :=
  [.alloca s.next (.struct .zval) 1, .call (s.next + 1) (wrapperOf v.type) [wrapped s, v]]

theorem sat_wrapAsVariant {v : Value} (hv : v.type.IsScalar)
    {Q : List IRAction → Codegen → Value → Prop} :
    Sat (wrapAsVariant v) s Q E ↔ Q (wrapLog s v) (withWrapped s) (wrapped s) := by
  unfold wrapAsVariant setRefCount
  rw [if_neg (by simpa only [isVariantType_iff] using hv.ne_variant)]
  simp only [sat_bind, sat_getWrappingFunction hv, Gen.sat_createAlloca, Gen.sat_createCall,
    sat_modify, sat_pure]
  rfl

theorem sat_asVariant {v : Value} (hs : s.Ready) (hv : s.Usable v)
    {Q : List IRAction → Codegen → Value → Prop} :
    Sat (asVariant v) s Q E ↔
      if v.type = .variant then Q [] s v else Q (wrapLog s v) (withWrapped s) (wrapped s) := by
  unfold asVariant
  simp only [isVariantType_iff]
  split_ifs with h
  · rfl
  · rw [← hv.counted_iff hs] at h
    exact sat_wrapAsVariant (hv.resolve_right h)

/-- The log of `createRetVoidIfCallFails`. -/
def checkLog (s : Codegen) (c : Value) : List IRAction :=
  [.createBlock s.next true, .createBlock (s.next + 1) true, .condBr c s.next (s.next + 1),
    .setInsertPoint (s.next + 1), .retVoid, .setInsertPoint s.next]

theorem sat_retVoidIfCallFails {c : Value} {Q : List IRAction → Codegen → Unit → Prop} :
    Sat (createRetVoidIfCallFails c) s Q E ↔
      Q (checkLog s c) (Gen.bump (Gen.bump s)) () := Iff.rfl

/-- The variant that an operation on variants makes. -/
def resultOf (s : Codegen) : Value := .instruction (s.next + 4) .variant

/-- The state after an operation on variants, before its operands go out of scope. -/
def withResult (s : Codegen) : Codegen := withCount { s with next := s.next + 5 } (resultOf s) 1

def resultLog (s : Codegen) (f : RuntimeFunction) (args : Value → List Value) : List IRAction :=
  [.alloca s.next .variant 1, .call (s.next + 1) f (args (.instruction s.next (.pointer .variant)))]
    ++ checkLog { s with next := s.next + 2 } (.instruction (s.next + 1) f.returnType)
    ++ [.load (s.next + 4) (.instruction s.next (.pointer .variant))]

/-- The call of an operation on variants, its check and the load of its result. -/
theorem sat_variantResult {α : Type} {f : RuntimeFunction} {args : Value → List Value}
    {k : Value → Gen α} {Q : List IRAction → Codegen → α → Prop} :
    Sat (do
      let ptrToResult ← Gen.createAlloca .variant 1
      let callResult ← Gen.createCall f (args ptrToResult)
      createRetVoidIfCallFails callResult
      let value ← Gen.createLoad ptrToResult
      setRefCount value 1
      k value) s Q E ↔
    Sat (k (resultOf s)) (withResult s) (fun l => Q (resultLog s f args ++ l))
      fun l => E (resultLog s f args ++ l) := by
  unfold setRefCount
  simp only [sat_bind, Gen.sat_createAlloca, Gen.sat_createCall, sat_retVoidIfCallFails,
    Gen.sat_createLoad, sat_modify]
  rfl

end PHPBindings

end B2
