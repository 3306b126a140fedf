import CssText.Bytes

/-!
# Runs of bytes

A scanner takes the longest run of a class of bytes. The run is found again wherever it is
followed by nothing or by a byte of another class.
-/

namespace CssText

theorem forall_byte {p : UInt8 → Prop} (h : ∀ n : Nat, n < 256 → p (UInt8.ofNat n)) :
    ∀ b, p b := by
  intro b
  have := h b.toNat (UInt8.toNat_lt b)
  rwa [UInt8.ofNat_toNat] at this

def beginsWith (p : UInt8 → Bool) (bs : Bytes) : Bool :=
  (bs.head?.map p).getD false

@[simp] theorem beginsWith_nil (p : UInt8 → Bool) : beginsWith p [] = false :=
  rfl

@[simp] theorem beginsWith_cons (p : UInt8 → Bool) (b : UInt8) (bs : Bytes) :
    beginsWith p (b :: bs) = p b :=
  rfl

theorem flatMap_eq_self {f : UInt8 → Bytes} {bs : Bytes} (h : ∀ b ∈ bs, f b = [b]) :
    bs.flatMap f = bs := by
  induction bs with
  | nil => rfl
  | cons b bs ih =>
      rw [List.flatMap_cons, h b List.mem_cons_self,
        ih fun c hc => h c (List.mem_cons_of_mem b hc)]
      rfl

theorem beginsWith_append_of_ne_nil (p : UInt8 → Bool) {xs : Bytes} (ys : Bytes)
    (h : xs ≠ []) : beginsWith p (xs ++ ys) = beginsWith p xs := by
  cases xs with
  | nil => exact absurd rfl h
  | cons x xs => rfl

theorem takeWhile_eq_nil_of_not_beginsWith {p : UInt8 → Bool} {bs : Bytes}
    (h : beginsWith p bs = false) : bs.takeWhile p = [] := by
  cases bs with
  | nil => rfl
  | cons b bs =>
      rw [beginsWith_cons] at h
      simp [h]

theorem dropWhile_eq_self_of_not_beginsWith {p : UInt8 → Bool} {bs : Bytes}
    (h : beginsWith p bs = false) : bs.dropWhile p = bs := by
  cases bs with
  | nil => rfl
  | cons b bs =>
      rw [beginsWith_cons] at h
      simp [h]

theorem not_beginsWith_dropWhile (p : UInt8 → Bool) (bs : Bytes) :
    beginsWith p (bs.dropWhile p) = false := by
  induction bs with
  | nil => rfl
  | cons b bs ih =>
      rw [List.dropWhile_cons]
      split
      · exact ih
      · rename_i h
        simpa using h

theorem takeWhile_append_stop {p : UInt8 → Bool} {run rest : Bytes}
    (hrun : ∀ b ∈ run, p b = true) (hrest : beginsWith p rest = false) :
    (run ++ rest).takeWhile p = run := by
  rw [List.takeWhile_append_of_pos hrun, takeWhile_eq_nil_of_not_beginsWith hrest,
    List.append_nil]

theorem dropWhile_append_stop {p : UInt8 → Bool} {run rest : Bytes}
    (hrun : ∀ b ∈ run, p b = true) (hrest : beginsWith p rest = false) :
    (run ++ rest).dropWhile p = rest := by
  rw [List.dropWhile_append_of_pos hrun, dropWhile_eq_self_of_not_beginsWith hrest]

end CssText
