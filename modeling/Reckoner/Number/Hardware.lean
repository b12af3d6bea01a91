import Reckoner.Number.Arithmetic

/-!
The arithmetic of the machine: correctly rounded basic operations, and the square root, sine and
cosine of its mathematical library.
-/
namespace Reckoner

def Single.toFloat32 (x : Single) : Float32 := Float32.ofBits x.bits

def Single.ofFloat32 (x : Float32) : Single := ⟨x.toBits⟩

def Double.toFloat (x : Double) : Float := Float.ofBits x.bits

def Double.ofFloat (x : Float) : Double := ⟨x.toBits⟩

namespace Arithmetic

def hardware : Arithmetic where
  ofUInt64 n := .ofFloat n.toFloat
  neg x := .ofFloat (-x.toFloat)
  binaryDouble
    | .add, x, y => .ofFloat (x.toFloat + y.toFloat)
    | .sub, x, y => .ofFloat (x.toFloat - y.toFloat)
    | .div, x, y => .ofFloat (x.toFloat / y.toFloat)
    | .mul, x, y => .ofFloat (x.toFloat * y.toFloat)
  intrinsicDouble
    | .sin, x => .ofFloat x.toFloat.sin
    | .cos, x => .ofFloat x.toFloat.cos
    | .sqrt, x => .ofFloat x.toFloat.sqrt
  binarySingle
    | .add, x, y => .ofFloat32 (x.toFloat32 + y.toFloat32)
    | .sub, x, y => .ofFloat32 (x.toFloat32 - y.toFloat32)
    | .div, x, y => .ofFloat32 (x.toFloat32 / y.toFloat32)
    | .mul, x, y => .ofFloat32 (x.toFloat32 * y.toFloat32)
  rootSingle x := .ofFloat32 x.toFloat32.sqrt
  narrow x := .ofFloat32 x.toFloat.toFloat32
  widen x := .ofFloat x.toFloat32.toFloat

end Arithmetic

end Reckoner
