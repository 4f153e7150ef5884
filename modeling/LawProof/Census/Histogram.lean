import LawProof.Sum

/-!
# Histograms

Bins that collect the indices of what was counted in them.
-/

namespace LawProof

structure Histogram where
  bins : List (List Nat)
deriving DecidableEq, Repr

namespace Histogram

/-- So many empty bins. -/
def new (bins : Nat) : Histogram := ⟨List.replicate bins []⟩

def bin (h : Histogram) (i : Nat) : List Nat := h.bins.getD i []

def frequency (h : Histogram) (i : Nat) : Nat := (h.bin i).length

/-- Adds empty bins up to bin `i`, if it is not there. -/
def grow (h : Histogram) (i : Nat) : Histogram :=
  ⟨h.bins ++ List.replicate (i + 1 - h.bins.length) []⟩

/-- Puts an index at the end of bin `i`. -/
def add (h : Histogram) (i index : Nat) : Histogram :=
  ⟨(h.grow i).bins.modify i (· ++ [index])⟩

def total (h : Histogram) : Nat := sumOf List.length h.bins

/-- The bins that are not empty, the fullest first; among equally full ones, the lowest first. -/
def ranking (h : Histogram) : List Nat :=
  ((List.range h.bins.length).filter fun i => 0 < h.frequency i).mergeSort
    fun i j => h.frequency j ≤ h.frequency i

end Histogram

end LawProof
