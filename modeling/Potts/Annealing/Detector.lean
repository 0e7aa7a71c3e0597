import Potts.Annealing.Cooling
import Potts.Failure.Error
import Potts.NullModel.Kind

/-!
# Detectors

The settings of community detection and their checks.
-/

namespace Potts

/-- The settings of a community detector. -/
structure Detector (F : Type) where
  /-- How strongly the null model counts against a community; more makes communities smaller. -/
  resolution : F
  nullModel : NullModel.Kind
  /-- The number of sweeps; without sweeps the random start is the answer. -/
  sweeps : Nat
  coldest : F
  hottest : F
  /-- The number of labels; zero stands for one label for each vertex. -/
  labels : Nat
  seed : UInt64
  verbose : Bool
  deriving Repr

namespace Detector

variable {F : Type} [Scalar F]

def isPositive (x : F) : Bool := Scalar.isFinite x && decide (Scalar.zero < x)

/-- Whether the settings can be used: the resolution and the hottest temperature are finite and
positive, the coldest is finite. The first setting that is not is reported. -/
def validate (d : Detector F) : Except (Error F) Unit :=
  if !isPositive d.resolution then .error (.invalidParameter .resolution)
  else if !isPositive d.hottest then .error (.invalidParameter .hottest)
  else if !Scalar.isFinite d.coldest then .error (.invalidParameter .coldest)
  else .ok ()

def cooling (d : Detector F) : Cooling F := .between d.coldest d.hottest d.sweeps

/-- The number of labels on a network of `size` vertices. -/
def labelCount (d : Detector F) (size : Nat) : Nat := if d.labels = 0 then size else d.labels

def standard : Detector Float where
  resolution := 1
  nullModel := .uncorrelated
  sweeps := 1000
  coldest := 0.01
  hottest := 1
  labels := 0
  seed := 42
  verbose := false

end Detector

end Potts
