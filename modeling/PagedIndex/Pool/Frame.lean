import PagedIndex.Page
import PagedIndex.PageId

/-!
Frames: slots of memory that hold one page each, with the page's pins and whether its bytes are
newer than those on disk.
-/

namespace PagedIndex

structure FrameId where
  index : Nat
  deriving DecidableEq, Repr

namespace FrameId

def text (frame : FrameId) : String := s!"Frame({frame.index})"

instance : Ord FrameId := ⟨fun a b => compare a.index b.index⟩

instance : Std.TransOrd FrameId where
  eq_swap := Std.OrientedOrd.eq_swap (α := Nat)
  isLE_trans {a b c} := @Std.TransCmp.isLE_trans Nat compare _ a.index b.index c.index

instance : Std.LawfulEqOrd FrameId where
  compare_self := Std.ReflOrd.compare_self (α := Nat)
  eq_of_compare {a b} h := by
    cases a; cases b
    exact congrArg FrameId.mk (Std.LawfulEqOrd.eq_of_compare (α := Nat) h)

end FrameId

structure Frame where
  bytes : Page
  page : Option PageId
  pins : UInt32
  dirty : Bool

namespace Frame

instance coePins : Coe UInt32 Nat := ⟨UInt32.toNat⟩

def free : Frame := ⟨Page.zeroed, none, 0, false⟩

def isPinned (frame : Frame) : Bool := 0 < frame.pins

/-- Binds a frame to a page with one pin. Without bytes the page is all zero. -/
def install (_ : Frame) (page : PageId) (bytes : Option Page) (dirty : Bool) : Frame :=
  ⟨bytes.getD Page.zeroed, some page, 1, dirty⟩

/-- Unbinds a frame. Its bytes stay until the next page is installed. -/
def clear (frame : Frame) : Frame := { frame with page := none, pins := 0, dirty := false }

def isCrowded (frame : Frame) : Bool := frame.pins = 4294967295

/-- Adds a pin. A crowded frame would come to have none, so the pool pins no such frame. -/
def pin (frame : Frame) : Frame := { frame with pins := frame.pins + 1 }

def unpin (frame : Frame) : Except Violation Frame :=
  if frame.pins = 0 then .error .pinUnderflow else .ok { frame with pins := frame.pins - 1 }

def markDirty (frame : Frame) : Frame := { frame with dirty := true }

def clearDirty (frame : Frame) : Frame := { frame with dirty := false }

variable {frame : Frame}

theorem pins_eq_zero_iff : frame.pins = 0 ↔ (frame.pins : Nat) = 0 :=
  UInt32.toNat_inj.symm

theorem isPinned_iff : frame.isPinned ↔ frame.pins ≠ 0 := by
  rw [isPinned, decide_eq_true_iff, UInt32.lt_iff_toNat_lt, Ne, pins_eq_zero_iff]
  exact Nat.pos_iff_ne_zero

theorem isCrowded_iff : frame.isCrowded ↔ (frame.pins : Nat) + 1 = UInt32.size := by
  rw [isCrowded, decide_eq_true_iff, ← UInt32.toNat_inj]
  exact (Nat.succ_inj (a := frame.pins.toNat) (b := 4294967295)).symm

theorem toNat_pin (roomy : ¬ frame.isCrowded) : (frame.pin.pins : Nat) = frame.pins + 1 := by
  rw [isCrowded_iff, UInt32.size] at roomy
  have bound := frame.pins.toNat_lt
  exact (UInt32.toNat_add _ _).trans (Nat.mod_eq_of_lt (by simp; omega))

theorem toNat_pins_sub_one (pinned : frame.pins ≠ 0) :
    ((frame.pins - 1 : UInt32) : Nat) + 1 = frame.pins := by
  have some : (frame.pins : Nat) ≠ 0 := mt pins_eq_zero_iff.mpr pinned
  rw [UInt32.toNat_sub_of_le]
  · simp; omega
  · rw [UInt32.le_iff_toNat_le]; simp; omega

end Frame

end PagedIndex
