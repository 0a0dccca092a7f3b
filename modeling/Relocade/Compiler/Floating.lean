import Relocade.Words.Lanes
import Relocade.Compiler.Integer

/-!
# `Compiler.Floating` — floating-point primitives

Sign operations are exact bit operations. Rounding arithmetic is a parameter: `Floating` collects the host's (or
the destination engine's) scalar primitives, each undefined where the result is a NaN, whose payload the compiler
never chooses. The packed operations map the scalar ones over lanes.
-/

namespace Relocade.Compiler

open Words

namespace Floating

inductive Format where
  | binary32 | binary64
  deriving DecidableEq

def Format.bits : Format → Nat
  | .binary32 => 32
  | .binary64 => 64

inductive BinaryOp where
  | add | sub | mul | div
  deriving DecidableEq

inductive UnaryOp where
  | abs | neg | ceil | floor | trunc | nearest | sqrt
  deriving DecidableEq

inductive ConvertOp where
  | promoteBinary32 | demoteBinary32 | fromSignedInteger | fromUnsignedInteger | truncateSaturatingI32
  deriving DecidableEq

inductive CompareOp where
  | eq | ne | lt | le | gt | ge
  deriving DecidableEq

inductive VectorConvertOp where
  | promoteLowBinary32
  | demoteBinary64Zero
  | fromSignedI32 (format : Format)
  | truncateSaturatingI32 (format : Format)
  deriving DecidableEq

end Floating

/-- Scalar IEEE primitives on raw encodings. -/
structure Floating where
  arithmetic : Floating.Format → Floating.BinaryOp → Nat → Nat → Option Nat
  rounding : Floating.Format → Floating.UnaryOp → Nat → Option Nat
  promote : Nat → Option Nat
  demote : Nat → Option Nat
  ofInt : Floating.Format → Int → Nat
  truncateSaturating : Floating.Format → Nat → Nat
  order : Floating.Format → Floating.CompareOp → Nat → Nat → Bool

namespace Floating

/-- Every result that `host` commits to is the one `engine` produces. -/
structure Agrees (host engine : Floating) : Prop where
  arithmetic : ∀ f o a b v, host.arithmetic f o a b = some v → engine.arithmetic f o a b = some v
  rounding : ∀ f o a v, host.rounding f o a = some v → engine.rounding f o a = some v
  promote : ∀ a v, host.promote a = some v → engine.promote a = some v
  demote : ∀ a v, host.demote a = some v → engine.demote a = some v
  ofInt : ∀ f i, host.ofInt f i = engine.ofInt f i
  truncateSaturating : ∀ f a, host.truncateSaturating f a = engine.truncateSaturating f a
  order : ∀ f o a b, host.order f o a b = engine.order f o a b

theorem Agrees.refl (F : Floating) : F.Agrees F :=
  ⟨fun _ _ _ _ _ h => h, fun _ _ _ _ h => h, fun _ _ h => h, fun _ _ h => h, fun _ _ => rfl, fun _ _ => rfl,
    fun _ _ _ _ => rfl⟩

/-- Primitives that commit to no rounding result. -/
def uncommitted : Floating where
  arithmetic _ _ _ _ := none
  rounding _ _ _ := none
  promote _ := none
  demote _ := none
  ofInt _ _ := 0
  truncateSaturating _ _ := 0
  order _ _ _ _ := false

variable (F : Floating)

def convert (operator : ConvertOp) (inputType : Ty) (x : Nat) : Option Nat :=
  match operator with
  | .promoteBinary32 => F.promote (x % 2 ^ 32)
  | .demoteBinary32 => F.demote x
  | .fromSignedInteger => some (F.ofInt .binary64 (Integer.signedValue inputType x))
  | .fromUnsignedInteger => some (F.ofInt .binary64 (inputType.normalize x))
  | .truncateSaturatingI32 => some (F.truncateSaturating .binary64 x % 2 ^ 32)

def binary (format : Format) (operator : BinaryOp) (left right : Nat) : Option Nat :=
  F.arithmetic format operator (left % 2 ^ format.bits) (right % 2 ^ format.bits)

/-- Sign operations preserve every NaN payload bit. -/
def unary (format : Format) (operator : UnaryOp) (x : Nat) : Option Nat :=
  let sign := 2 ^ (format.bits - 1)
  match operator with
  | .abs => some (x &&& (lowMask 64 ^^^ sign))
  | .neg => some (x ^^^ sign)
  | .ceil | .floor | .trunc | .nearest | .sqrt => F.rounding format operator (x % 2 ^ format.bits)

def compare (format : Format) (operator : CompareOp) (left right : Nat) : Bool :=
  F.order format operator (left % 2 ^ format.bits) (right % 2 ^ format.bits)

/-! ## Packed operations -/

def vectorBinary (format : Format) (operator : BinaryOp) (left right : Nat) : Option Nat :=
  packM format.bits (fun i => F.binary format operator (lane format.bits i left) (lane format.bits i right))
    (128 / format.bits)

def vectorUnary (format : Format) (operator : UnaryOp) (input : Nat) : Option Nat :=
  packM format.bits (fun i => F.unary format operator (lane format.bits i input)) (128 / format.bits)

def vectorCompare (format : Format) (operator : CompareOp) (left right : Nat) : Nat :=
  pack format.bits
    (fun i =>
      if F.compare format operator (lane format.bits i left) (lane format.bits i right) then lowMask format.bits
      else 0)
    (128 / format.bits)

def vectorConvert (operator : VectorConvertOp) (input : Nat) : Option Nat :=
  match operator with
  | .promoteLowBinary32 => packM 64 (fun i => F.convert .promoteBinary32 .i32 (lane 32 i input)) 2
  | .demoteBinary64Zero => packM 32 (fun i => F.convert .demoteBinary32 .f64 (lane 64 i input)) 2
  | .fromSignedI32 format =>
      some (pack format.bits (fun i => F.ofInt format (Integer.signedValue .i32 (lane 32 i input)))
        (128 / format.bits))
  | .truncateSaturatingI32 format =>
      some (pack 32 (fun i => F.truncateSaturating format (lane format.bits i input)) (128 / format.bits))

variable {F} {host engine : Floating}

variable {x v : Nat}

section

variable (h : host.Agrees engine)

include h

theorem Agrees.convert {o : ConvertOp} {ty : Ty}
    (hv : host.convert o ty x = some v) : engine.convert o ty x = some v := by
  cases o with
  | promoteBinary32 => exact h.promote _ _ hv
  | demoteBinary32 => exact h.demote _ _ hv
  | fromSignedInteger => simpa [Floating.convert, h.ofInt] using hv
  | fromUnsignedInteger => simpa [Floating.convert, h.ofInt] using hv
  | truncateSaturatingI32 => simpa [Floating.convert, h.truncateSaturating] using hv

variable {f : Format}

theorem Agrees.unary {o : UnaryOp}
    (hv : host.unary f o x = some v) : engine.unary f o x = some v := by
  cases o <;> first | exact hv | exact h.rounding _ _ _ _ hv

theorem Agrees.binary {o : BinaryOp} {x y v : Nat}
    (hv : host.binary f o x y = some v) : engine.binary f o x y = some v :=
  h.arithmetic _ _ _ _ _ hv

theorem Agrees.compare (f : Format) (o : CompareOp) (x y : Nat) : host.compare f o x y = engine.compare f o x y :=
  h.order _ _ _ _

theorem Agrees.vectorBinary {o : BinaryOp} {x y v : Nat}
    (hv : host.vectorBinary f o x y = some v) : engine.vectorBinary f o x y = some v :=
  packM_mono (fun _ _ _ hi => h.binary hi) hv

theorem Agrees.vectorUnary {o : UnaryOp}
    (hv : host.vectorUnary f o x = some v) : engine.vectorUnary f o x = some v :=
  packM_mono (fun _ _ _ hi => h.unary hi) hv

theorem Agrees.vectorCompare (f : Format) (o : CompareOp) (x y : Nat) :
    host.vectorCompare f o x y = engine.vectorCompare f o x y := by
  unfold Floating.vectorCompare
  simp only [h.compare]

theorem Agrees.vectorConvert {o : VectorConvertOp}
    (hv : host.vectorConvert o x = some v) : engine.vectorConvert o x = some v := by
  cases o with
  | promoteLowBinary32 => exact packM_mono (fun _ _ _ hi => h.convert hi) hv
  | demoteBinary64Zero => exact packM_mono (fun _ _ _ hi => h.convert hi) hv
  | fromSignedI32 f => simpa only [Floating.vectorConvert, h.ofInt] using hv
  | truncateSaturatingI32 f => simpa only [Floating.vectorConvert, h.truncateSaturating] using hv

end

end Floating

end Relocade.Compiler
