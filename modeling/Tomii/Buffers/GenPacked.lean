import Tomii.Foundations.MachineWord
import Tomii.Foundations.LazyReset

/-! Generational words: the upper half tags the generation that wrote the word, the
lower half is its value. A word of another generation counts as initial. -/
namespace Tomii
set_option autoImplicit false
set_option maxHeartbeats 250000

def genPack (gen val : UInt32) : UInt64 := packHalves gen val

def genUnpackGen (packed : UInt64) : UInt32 := highHalf packed

def genUnpackVal (packed : UInt64) : UInt32 := lowHalf packed

/-- `if stored_gen == slot_gen { gen_unpack_val(packed) } else { init_val }`. -/
def genRead (slotGen init : UInt32) (packed : UInt64) : UInt32 :=
  if genUnpackGen packed = slotGen then genUnpackVal packed else init

@[simp] theorem genUnpackGen_genPack (gen val : UInt32) : genUnpackGen (genPack gen val) = gen :=
  highHalf_packHalves gen val

@[simp] theorem genUnpackVal_genPack (gen val : UInt32) : genUnpackVal (genPack gen val) = val :=
  lowHalf_packHalves gen val

/-- The word as a lazily reset cell. -/
def genCell (packed : UInt64) : Stamped UInt32 UInt32 :=
  ⟨genUnpackGen packed, genUnpackVal packed⟩

@[simp] theorem genCell_genPack (gen val : UInt32) : genCell (genPack gen val) = ⟨gen, val⟩ := by
  simp [genCell]

theorem genRead_eq_read (slotGen init : UInt32) (packed : UInt64) :
    genRead slotGen init packed = (genCell packed).read slotGen init := rfl

@[simp] theorem genRead_genPack (slotGen init val : UInt32) :
    genRead slotGen init (genPack slotGen val) = val := by
  simp [genRead]

end Tomii
