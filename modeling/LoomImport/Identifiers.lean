import LoomImport.Translate

/-!
# Identifiers that tell names apart

The name a source name is encoded as determines it, whatever characters it has, and the name of the net of a child determines the child
and its port.
-/

namespace LoomImport

/-! ## Encoded names -/

/-- The digits of some bytes, two a byte. -/
def hexDigits (bytes : List UInt8) : List Char := bytes.flatMap fun byte => [hexDigit (byte.toNat / 16), hexDigit (byte.toNat % 16)]

theorem hexDigit_inj : ∀ a < 16, ∀ b < 16, hexDigit a = hexDigit b → a = b := by decide

theorem hexDigit_ne_underscore : ∀ a < 16, hexDigit a ≠ '_' := by decide

theorem digits_lt (byte : UInt8) : byte.toNat / 16 < 16 ∧ byte.toNat % 16 < 16 := by
  have := byte.toNat_lt
  omega

theorem hexDigits_injective : Function.Injective hexDigits := by
  intro bytes
  induction bytes with
  | nil =>
    intro bytes' h
    cases bytes' with
    | nil => rfl
    | cons byte' bytes' => simp [hexDigits] at h
  | cons byte bytes ih =>
    intro bytes' h
    cases bytes' with
    | nil => simp [hexDigits] at h
    | cons byte' bytes' =>
      simp only [hexDigits, List.flatMap_cons, List.cons_append, List.nil_append, List.cons.injEq] at h
      obtain ⟨hhigh, hlow, hrest⟩ := h
      have hdiv := hexDigit_inj _ (digits_lt byte).1 _ (digits_lt byte').1 hhigh
      have hmod := hexDigit_inj _ (digits_lt byte).2 _ (digits_lt byte').2 hlow
      have hbyte : byte.toNat = byte'.toNat := by omega
      rw [UInt8.toNat_inj.1 hbyte, ih hrest]

theorem underscore_notMem_hexDigits (bytes : List UInt8) : '_' ∉ hexDigits bytes := by
  intro h
  obtain ⟨byte, -, hdigit⟩ := List.mem_flatMap.1 h
  rcases List.mem_cons.1 hdigit with hhigh | hlow
  · exact hexDigit_ne_underscore _ (digits_lt byte).1 hhigh.symm
  · exact hexDigit_ne_underscore _ (digits_lt byte).2 (List.mem_singleton.1 hlow).symm

/-- The bytes of a text determine it. -/
theorem utf8_injective : Function.Injective fun text : String => text.toList.flatMap String.utf8EncodeChar := by
  intro text text' h
  have hencode : text.toList.utf8Encode = text'.toList.utf8Encode := congrArg List.toByteArray h
  have hdecode := congrArg ByteArray.utf8Decode? hencode
  rw [List.utf8Decode?_utf8Encode, List.utf8Decode?_utf8Encode] at hdecode
  exact String.toList_injective (by simpa using hdecode)

/-- The characters of an encoded name. -/
theorem toList_legalIdentifier (name : String) : (legalIdentifier name).toList =
    '_' :: 'h' :: hexDigits (name.toList.flatMap String.utf8EncodeChar) := by
  simp [legalIdentifier, hexDigits]

/-- The encoded name determines the name. -/
theorem legalIdentifier_injective : Function.Injective legalIdentifier := by
  intro name name' h
  have hlist := congrArg String.toList h
  rw [toList_legalIdentifier, toList_legalIdentifier] at hlist
  exact utf8_injective (hexDigits_injective (List.cons.inj (List.cons.inj hlist).2).2)

/-! ## Nets of children -/

/-- Two texts with a mark after parts without it: the parts agree. -/
theorem append_mark_inj {α : Type} {mark : α} {xs ys xs' ys' : List α} (hxs : mark ∉ xs) (hxs' : mark ∉ xs')
    (h : xs ++ mark :: ys = xs' ++ mark :: ys') : xs = xs' ∧ ys = ys' := by
  induction xs generalizing xs' with
  | nil =>
    cases xs' with
    | nil => exact ⟨rfl, (List.cons.inj h).2⟩
    | cons x' xs' => exact absurd ((List.cons.inj h).1 ▸ List.mem_cons_self) hxs'
  | cons x xs ih =>
    cases xs' with
    | nil => exact absurd ((List.cons.inj h).1 ▸ List.mem_cons_self) hxs
    | cons x' xs' =>
      obtain ⟨rfl, hrest⟩ := List.cons.inj h
      obtain ⟨rfl, rfl⟩ := ih (List.not_mem_of_not_mem_cons hxs) (List.not_mem_of_not_mem_cons hxs') hrest
      exact ⟨rfl, rfl⟩

/-- The name of the net of a child determines the child and its port. -/
theorem instanceNet_inj {cellName cellName' port port' : String} (h : instanceNet cellName port = instanceNet cellName' port') :
    cellName = cellName' ∧ port = port' := by
  have hlist := congrArg String.toList h
  simp only [instanceNet, String.toList_append, List.append_assoc, toList_legalIdentifier, List.append_cancel_left_eq, List.cons_append,
    List.cons.injEq, true_and] at hlist
  -- the digits of the cell end at the first underscore
  obtain ⟨hcell, hrest⟩ := append_mark_inj (underscore_notMem_hexDigits _) (underscore_notMem_hexDigits _) hlist
  have hport := (List.cons.inj (List.cons.inj (List.cons.inj hrest).2).2).2
  have encoded : ∀ {name name' : String}, hexDigits (name.toList.flatMap String.utf8EncodeChar) =
      hexDigits (name'.toList.flatMap String.utf8EncodeChar) → name = name' := by
    intro name name' hdigits
    refine legalIdentifier_injective (String.toList_injective ?_)
    rw [toList_legalIdentifier, toList_legalIdentifier, hdigits]
  exact ⟨encoded hcell, encoded hport⟩

end LoomImport
