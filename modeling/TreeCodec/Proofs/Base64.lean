import TreeCodec.Base64

/-!
# Byte strings come back from their text

* `Base64.sextet?_symbol`: a symbol stands for the six bits it was made of;
* `Base64.byte₁_sextets` and its like: three bytes come back from their four sextets;
* `Base64.decode_encode`, `Base64.decodeString_encodeString`: a byte string is what its
  text is read as;
* `Base64.encode_of_decode`, `Base64.encodeString_of_decodeString`: no other text is read
  as it.
-/

namespace TreeCodec.Base64

/-! ## Symbols -/

theorem sextet?_symbol (v : Fin 64) : sextet? (symbol v) = some v := by
  revert v
  decide

theorem symbol_ne_pad (v : Fin 64) : symbol v ≠ pad := by
  revert v
  decide

theorem symbol_lt (v : Fin 64) : (symbol v).toNat < 128 := by
  revert v
  decide

theorem sextetAt_symbol (v : Fin 64) (offset : Nat) : sextetAt (symbol v) offset = .ok v := by
  rw [sextetAt, sextet?_symbol]

/-! ## Bytes -/

section Bytes

variable (a b c : UInt8)

theorem byte₁_sextets : byte₁ (sextets a b c).1 (sextets a b c).2.1 = a := by
  have ha := a.toNat_lt
  have hb := b.toNat_lt
  rw [← UInt8.toNat_inj]
  simp only [byte₁, sextets, Fin.val_ofNat, UInt8.toNat_ofNat']
  omega

theorem byte₂_sextets : byte₂ (sextets a b c).2.1 (sextets a b c).2.2.1 = b := by
  have hb := b.toNat_lt
  have hc := c.toNat_lt
  rw [← UInt8.toNat_inj]
  simp only [byte₂, sextets, Fin.val_ofNat, UInt8.toNat_ofNat']
  omega

theorem byte₃_sextets : byte₃ (sextets a b c).2.2.1 (sextets a b c).2.2.2 = c := by
  have hc := c.toNat_lt
  rw [← UInt8.toNat_inj]
  simp only [byte₃, sextets, Fin.val_ofNat, UInt8.toNat_ofNat']
  omega

/-- One byte leaves no bits in the second sextet's lower four. -/
theorem sextets_one : (sextets a 0 0).2.1.val % 16 = 0 := by
  have ha := a.toNat_lt
  simp only [sextets, Fin.val_ofNat, UInt8.toNat_zero]
  omega

/-- Two bytes leave no bits in the third sextet's lower two. -/
theorem sextets_two : (sextets a b 0).2.2.1.val % 4 = 0 := by
  have hb := b.toNat_lt
  simp only [sextets, Fin.val_ofNat, UInt8.toNat_zero]
  omega

end Bytes

/-! ## Groups -/

theorem readTail_symbol (start seen : Nat) (v : Fin 64) (rest : List UInt8) :
    readTail start seen (symbol v :: rest) =
      (readTail start (seen + 1) rest).map fun r => (v :: r.1, r.2) := by
  rw [readTail, if_neg (symbol_ne_pad v), sextetAt_symbol]
  rcases readTail start (seen + 1) rest with e | ⟨vs, n⟩ <;> rfl

theorem readTail_pad (start seen : Nat) (rest : List UInt8) (hs : 2 ≤ seen)
    (hr : rest.all (· == pad) = true) : readTail start seen (pad :: rest) = .ok ([], rest.length + 1) := by
  rw [readTail, if_pos rfl, if_pos ⟨hs, hr⟩]

theorem decodeTail_one (start : Nat) (a : UInt8) : decodeTail start (encode [a]) = .ok [a] := by
  have read : readTail start 0 (encode [a]) =
      .ok ([(sextets a 0 0).1, (sextets a 0 0).2.1], 2) := by
    rw [encode, readTail_symbol, readTail_symbol, readTail_pad _ _ _ (Nat.le_refl 2) rfl]
    rfl
  have bytes : tailBytes start [(sextets a 0 0).1, (sextets a 0 0).2.1] = .ok [a] := by
    rw [tailBytes, if_pos (sextets_one a), byte₁_sextets]
  simpa [decodeTail, read, bind, Except.bind] using bytes

theorem decodeTail_two (start : Nat) (a b : UInt8) :
    decodeTail start (encode [a, b]) = .ok [a, b] := by
  have read : readTail start 0 (encode [a, b]) =
      .ok ([(sextets a b 0).1, (sextets a b 0).2.1, (sextets a b 0).2.2.1], 1) := by
    rw [encode, readTail_symbol, readTail_symbol, readTail_symbol,
      readTail_pad _ _ _ (Nat.le_succ 2) rfl]
    rfl
  have bytes : tailBytes start [(sextets a b 0).1, (sextets a b 0).2.1, (sextets a b 0).2.2.1] =
      .ok [a, b] := by
    rw [tailBytes, if_pos (sextets_two a b), byte₁_sextets, byte₂_sextets]
  simpa [decodeTail, read, bind, Except.bind] using bytes

theorem decodeTail_three (start : Nat) (a b c : UInt8) :
    decodeTail start (encode [a, b, c]) = .ok [a, b, c] := by
  have read : readTail start 0 (encode [a, b, c]) =
      .ok ([(sextets a b c).1, (sextets a b c).2.1, (sextets a b c).2.2.1,
        (sextets a b c).2.2.2], 0) := by
    rw [encode, readTail_symbol, readTail_symbol, readTail_symbol, readTail_symbol]
    rfl
  simp [decodeTail, read, bind, Except.bind, tailBytes, byte₁_sextets, byte₂_sextets, byte₃_sextets]

/-- A group that others follow is read by itself. -/
theorem decodeGroups_group (start : Nat) (a b c : UInt8) {rest : List UInt8} (hr : rest ≠ []) :
    decodeGroups start (encode (a :: b :: c :: rest)) =
      (decodeGroups (start + 4) (encode rest)).map fun bytes => a :: b :: c :: bytes := by
  obtain ⟨e, tail, he⟩ : ∃ e tail, encode rest = e :: tail := by
    rcases rest with _ | ⟨a', _ | ⟨b', _ | ⟨c', rest⟩⟩⟩
    · exact absurd rfl hr
    all_goals exact ⟨_, _, rfl⟩
  rw [encode, he]
  simp only [decodeGroups, sextetAt_symbol]
  show (decodeGroups (start + 4) (e :: tail) >>= fun bytes =>
    Except.ok (byte₁ _ _ :: byte₂ _ _ :: byte₃ _ _ :: bytes)) = _
  rw [byte₁_sextets, byte₂_sextets, byte₃_sextets]
  rcases decodeGroups (start + 4) (e :: tail) with x | x <;> rfl

theorem decodeGroups_encode (start : Nat) :
    ∀ bytes : List UInt8, bytes ≠ [] → decodeGroups start (encode bytes) = .ok bytes
  | [], h => absurd rfl h
  | [a], _ => decodeTail_one start a
  | [a, b], _ => decodeTail_two start a b
  | [a, b, c], _ => decodeTail_three start a b c
  | a :: b :: c :: a' :: rest, _ => by
    have ih := decodeGroups_encode (start + 4) (a' :: rest) (List.cons_ne_nil _ _)
    rw [decodeGroups_group start a b c (List.cons_ne_nil _ _), ih]
    rfl

/-! ## Texts -/

theorem length_encode : ∀ bytes : List UInt8, (encode bytes).length % 4 = 0
  | [] => by simp [encode]
  | [_] => by simp [encode]
  | [_, _] => by simp [encode]
  | _ :: _ :: _ :: rest => by
    have ih := length_encode rest
    simp only [encode, List.length_cons]
    omega

theorem decode_encode (bytes : List UInt8) : decode (encode bytes) = .ok bytes := by
  by_cases h : bytes = []
  · subst h
    rfl
  · have checked : checkLast (encode bytes) = .ok () := by
      have length := length_encode bytes
      rw [checkLast]
      split
      · rw [if_neg (by omega)]
      · rfl
    have groups := decodeGroups_encode 0 bytes h
    rw [decode.eq_def]
    split
    · rename_i hn
      rw [hn] at groups
      cases groups
    · rw [checked]
      exact groups

/-- The symbols of a text are single bytes of the string that spells it. -/
theorem encode_lt : ∀ bytes : List UInt8, ∀ b ∈ encode bytes, b.toNat < 128
  | [] => by simp [encode]
  | [_] => by simp [encode, symbol_lt, pad]
  | [_, _] => by simp [encode, symbol_lt, pad]
  | _ :: _ :: _ :: rest => by
    have ih := encode_lt rest
    simpa [encode, symbol_lt] using ih

theorem utf8EncodeChar_ofNat (b : UInt8) (hb : b.toNat < 128) :
    String.utf8EncodeChar (Char.ofNat b.toNat) = [b] := by
  have all : ∀ n : Fin 128, String.utf8EncodeChar (Char.ofNat n.val) = [UInt8.ofNat n.val] := by decide
  rw [all ⟨b.toNat, hb⟩]
  simp

theorem toUTF8_encodeString (bytes : List UInt8) :
    (encodeString bytes).toUTF8.data.toList = encode bytes := by
  have spelled : ∀ l : List UInt8, (∀ b ∈ l, b.toNat < 128) →
      (l.map fun b => Char.ofNat b.toNat).flatMap String.utf8EncodeChar = l := by
    intro l hl
    induction l with
    | nil => rfl
    | cons b l ih =>
      rw [List.map_cons, List.flatMap_cons, utf8EncodeChar_ofNat b (hl b List.mem_cons_self),
        ih fun b' hb' => hl b' (List.mem_cons_of_mem _ hb')]
      rfl
  rw [encodeString, String.toUTF8_eq_toByteArray, String.toByteArray_ofList, List.utf8Encode,
    spelled _ (encode_lt bytes)]
  simp

theorem decodeString_encodeString (bytes : List UInt8) :
    decodeString (encodeString bytes) = .ok bytes := by
  rw [decodeString, toUTF8_encodeString, decode_encode]

/-! ## Canonical texts -/

theorem symbol_of_sextet? {b : UInt8} {v : Fin 64} (h : sextet? b = some v) : symbol v = b := by
  have all : ∀ n : Fin 256,
      (sextet? (.ofNat n.val)).all (fun v => symbol v == .ofNat n.val) = true := by
    decide +kernel
  have here := all ⟨b.toNat, b.toNat_lt⟩
  rw [UInt8.ofNat_toNat, h] at here
  exact eq_of_beq here

theorem symbol_of_sextetAt {b : UInt8} {offset : Nat} {v : Fin 64} (h : sextetAt b offset = .ok v) :
    symbol v = b := by
  rw [sextetAt] at h
  rcases hs : sextet? b with _ | w <;> rw [hs] at h <;> cases h
  exact symbol_of_sextet? hs

section Sextets

variable (s t u v : Fin 64)

theorem sextets_bytes : sextets (byte₁ s t) (byte₂ t u) (byte₃ u v) = (s, t, u, v) := by
  have hs := s.isLt
  have ht := t.isLt
  have hu := u.isLt
  have hv := v.isLt
  simp only [sextets, Prod.mk.injEq, Fin.ext_iff, Fin.val_ofNat, byte₁, byte₂, byte₃,
    UInt8.toNat_ofNat']
  omega

theorem encode_bytes (rest : List UInt8) :
    encode (byte₁ s t :: byte₂ t u :: byte₃ u v :: rest) =
      symbol s :: symbol t :: symbol u :: symbol v :: encode rest := by
  rw [encode, sextets_bytes]

/-- A third sextet without bits in its lower four leaves nothing to a third byte. -/
theorem encode_bytes_two {u : Fin 64} (h : u.val % 4 = 0) :
    encode [byte₁ s t, byte₂ t u] = [symbol s, symbol t, symbol u, pad] := by
  have empty : byte₃ u 0 = 0 := by simp [byte₃, h]
  have group := sextets_bytes s t u 0
  rw [empty] at group
  rw [encode, group]

theorem encode_bytes_one {t : Fin 64} (h : t.val % 16 = 0) :
    encode [byte₁ s t] = [symbol s, symbol t, pad, pad] := by
  have empty : byte₂ t 0 = 0 := by simp [byte₂, h]
  have group := sextets_bytes s t 0 0
  rw [empty, show byte₃ 0 0 = 0 from rfl] at group
  rw [encode, group]

end Sextets

/-- The last group is read from its symbols and the padding behind them. -/
theorem readTail_eq {start seen : Nat} {text : List UInt8} {vs : List (Fin 64)} {padding : Nat}
    (h : readTail start seen text = .ok (vs, padding)) :
    text = vs.map symbol ++ .replicate padding pad := by
  induction text generalizing seen vs with
  | nil => cases h; rfl
  | cons b rest ih =>
    rw [readTail] at h
    split at h
    · rename_i filled
      subst filled
      split at h
      · rename_i pads
        cases h
        have rest : rest = .replicate rest.length pad :=
          List.eq_replicate_of_mem fun c hc => eq_of_beq (List.all_eq_true.mp pads.2 c hc)
        rw [List.replicate_succ, ← rest]
        rfl
      · cases h
    · rcases hs : sextetAt b (start + seen) with e | v <;> rw [hs] at h
      · cases h
      · rcases hr : readTail start (seen + 1) rest with e | ⟨ws, n⟩ <;> rw [hr] at h <;> cases h
        rw [List.map_cons, symbol_of_sextetAt hs, List.cons_append, ← ih hr]

theorem encode_of_decodeTail {start : Nat} {text bytes : List UInt8} (short : text.length ≤ 4)
    (h : decodeTail start text = .ok bytes) : encode bytes = text := by
  rw [decodeTail] at h
  rcases hr : readTail start 0 text with e | ⟨vs, padding⟩ <;> rw [hr] at h
  · cases h
  have spelled := readTail_eq hr
  have length : text.length = vs.length + padding := by
    rw [spelled, List.length_append, List.length_map, List.length_replicate]
  change (if _ then _ else if _ then _ else _) = _ at h
  split at h
  · cases h
  · split at h
    · cases h
    · obtain rfl : padding = 4 - vs.length := by omega
      rw [spelled]
      clear spelled hr length
      match vs, h with
      | [s, t], h =>
        rw [tailBytes] at h
        split at h <;> cases h
        exact encode_bytes_one s ‹_›
      | [s, t, u], h =>
        rw [tailBytes] at h
        split at h <;> cases h
        exact encode_bytes_two s t ‹_›
      | [s, t, u, v], h =>
        cases h
        exact encode_bytes s t u v []

theorem encode_of_decodeGroups {start : Nat} {text bytes : List UInt8}
    (h : decodeGroups start text = .ok bytes) : encode bytes = text := by
  induction start, text using decodeGroups.induct generalizing bytes with
  | case1 start a b c d e rest ih =>
    rw [decodeGroups] at h
    rcases hs : sextetAt a start with _ | s <;> rw [hs] at h
    · cases h
    rcases ht : sextetAt b (start + 1) with _ | t <;> rw [ht] at h
    · cases h
    rcases hu : sextetAt c (start + 2) with _ | u <;> rw [hu] at h
    · cases h
    rcases hv : sextetAt d (start + 3) with _ | v <;> rw [hv] at h
    · cases h
    rcases hr : decodeGroups (start + 4) (e :: rest) with _ | bytes' <;> rw [hr] at h <;> cases h
    rw [encode_bytes, ih hr, symbol_of_sextetAt hs, symbol_of_sextetAt ht, symbol_of_sextetAt hu,
      symbol_of_sextetAt hv]
  | case2 start tail last =>
    have short : tail.length ≤ 4 := by
      rcases tail with _ | ⟨a, _ | ⟨b, _ | ⟨c, _ | ⟨d, _ | ⟨e, rest⟩⟩⟩⟩⟩
      all_goals first | exact absurd rfl (last _ _ _ _ _ _) | simp
    rw [decodeGroups] at h
    · exact encode_of_decodeTail short h
    · exact last

/-- Only the text of a byte string is read as the byte string. -/
theorem encode_of_decode {text bytes : List UInt8} (h : decode text = .ok bytes) :
    encode bytes = text := by
  cases text with
  | nil => cases h; rfl
  | cons b rest =>
    rw [decode] at h
    · rcases hc : checkLast (b :: rest) with e | _ <;> rw [hc] at h
      · cases h
      · exact encode_of_decodeGroups h
    · exact nofun

theorem encodeString_of_decodeString {s : String} {bytes : List UInt8}
    (h : decodeString s = .ok bytes) : encodeString bytes = s := by
  have text := toUTF8_encodeString bytes
  rw [encode_of_decode h] at text
  rw [← String.toByteArray_inj, ← String.toUTF8_eq_toByteArray, ← String.toUTF8_eq_toByteArray]
  exact ByteArray.ext (Array.toList_inj.mp text)

end TreeCodec.Base64
