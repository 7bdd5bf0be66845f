import TortoiseSvn.Streams.HuffmanDecoder

/-!
# What the Huffman decoder reads

The registers of the decoder hold windows into the bits of its source. `bitPos` and `symbol` say
what a plain reader of the codes finds, and `decodeFrom_spec` that the decoder finds the same as
long as it stays in its source, which `InBounds` describes in terms of the plain reader.

Main result: `decode_safe_iff`.
-/

namespace TortoiseSvn.LogCache

open TortoiseSvn.Lib

namespace CHuffmanDecoder

/-! ### Reading code by code -/

section Codes

variable (t : CHuffmanDecoder) (source : List UInt8)

/-- The bit where the code of the `j`th byte begins. -/
def bitPos : ℕ → ℕ
  | 0 => 0
  | j + 1 => bitPos j +
    ((t.entry (window (leNat source) (bitPos j) 12)).elim 0 fun e => (e.2 : ℕ))

/-- The entry of the table for the `j`th byte. -/
def entryAt (j : ℕ) : Option (UInt8 × Fin 16) :=
  t.entry (window (leNat source) (t.bitPos source j) 12)

/-- The `j`th byte. -/
def symbol (j : ℕ) : UInt8 := (t.entryAt source j).elim 0 Prod.fst

/-- The length of the code of the `j`th byte. -/
def keyLength (j : ℕ) : ℕ := (t.entryAt source j).elim 0 fun e => (e.2 : ℕ)

/-- Where the `b`th round of the main loop fetches eight bytes: seven behind the byte in which, or
in front of which, the codes of the round begin. -/
def fetchPos (b : ℕ) : ℕ := 7 + (t.bitPos source (4 * b) + 7) / 8

/-- What the rounds from the `b`th one on and the odd bytes behind them need: all that is fetched
lies in the source, no round consumes more than what it knows of, and the table has an entry for
every code. -/
structure Ahead (b blocks odd : ℕ) : Prop where
  fetch : ∀ i < blocks, t.fetchPos source (b + i) + 8 ≤ source.length
  consumed : ∀ i < blocks, t.bitPos source (4 * (b + i) + 4) ≤ 8 * t.fetchPos source (b + i)
  entered : ∀ i < 4 * blocks + odd, (t.entryAt source (4 * b + i)).isSome

/-- The decoder stays in its source and in what was entered into its table. -/
structure InBounds (decodedSize : ℕ) : Prop where
  start : 8 ≤ source.length
  ahead : t.Ahead source 0 (decodedSize / 4) (decodedSize % 4)

/-- The registers in front of the `b`th round. -/
structure At (b : ℕ) (s : Registers) : Prop where
  code : ∃ m, s.cachedBits ≤ m ∧ m ≤ 64 ∧
    s.cachedCode = window (leNat source) (t.bitPos source (4 * b)) m
  bits_lt : s.cachedBits < 64
  position : 8 * s.first = t.bitPos source (4 * b) + s.cachedBits
  next : s.nextCodes = window (leNat source) (8 * s.first) 64

end Codes

section Rounds

variable {t : CHuffmanDecoder} {source : List UInt8}

theorem load_of_le {first : ℕ} (h : first + 8 ≤ source.length) :
    load source first = .ok (window (leNat source) (8 * first) 64) := by
  rw [load, if_pos h, leNat_segment h]

theorem At.refill {b : ℕ} {s : Registers} (h : t.At source b s) :
    s.refill = .ok (window (leNat source) (t.bitPos source (4 * b)) 64) := by
  obtain ⟨m, hc, hm, hcode⟩ := h.code
  rw [Registers.refill, if_pos h.bits_lt, hcode, h.next, h.position, window_fill _ _ hc hm]

theorem bitPos_succ (j : ℕ) :
    t.bitPos source (j + 1) = t.bitPos source j + t.keyLength source j := rfl

theorem keyLength_lt (t : CHuffmanDecoder) (source : List UInt8) (j : ℕ) :
    t.keyLength source j < 16 := by
  unfold keyLength
  cases t.entryAt source j with
  | none => exact Nat.succ_pos 15
  | some e => exact e.2.is_lt

theorem checked_entryAt (j : ℕ) : checked (t.entryAt source j) =
    if (t.entryAt source j).isSome then
      .ok (t.symbol source j, ⟨t.keyLength source j, keyLength_lt t source j⟩)
    else .error .undefined := by
  cases h : t.entryAt source j with
  | none => rfl
  | some e =>
    have hsymbol : t.symbol source j = e.1 := by
      rw [symbol, h]
      rfl
    have hlength : (⟨t.keyLength source j, keyLength_lt t source j⟩ : Fin 16) = e.2 := by
      apply Fin.ext
      dsimp only
      rw [keyLength, h]
      rfl
    rw [hsymbol, hlength]
    rfl

/-- A byte is decoded from a window that holds its code. -/
theorem decodeByte_window (t : CHuffmanDecoder) (source : List UInt8) (j m : ℕ)
    (hm : 12 ≤ m) (cachedBits : ℕ) :
    t.decodeByte (window (leNat source) (t.bitPos source j) m) cachedBits =
      if (t.entryAt source j).isSome then
        .ok (t.symbol source j, window (leNat source) (t.bitPos source (j + 1))
          (m - t.keyLength source j), (cachedBits + 256 - t.keyLength source j) % 256)
      else .error .undefined := by
  rw [decodeByte, window_mod _ _ hm, ← entryAt, checked_entryAt]
  split
  · simp only [bind, Except.bind, pure, Except.pure]
    rw [window_shiftRight]
    rfl
  · rfl

theorem or_56 : ∀ c < 64, c ||| 56 = 56 + c % 8 := by decide

/-- The number of cached bits behind a round, a `BYTE`. -/
theorem bits_of_lengths {c l₀ l₁ l₂ l₃ : ℕ} (h₀ : l₀ < 16) (h₁ : l₁ < 16) (h₂ : l₂ < 16)
    (h₃ : l₃ < 16) :
    ((((56 + c % 8 + 256 - l₀) % 256 + 256 - l₁) % 256 + 256 - l₂) % 256 + 256 - l₃) % 256 =
      if l₀ + l₁ + l₂ + l₃ ≤ 56 + c % 8 then 56 + c % 8 - (l₀ + l₁ + l₂ + l₃)
      else 312 + c % 8 - (l₀ + l₁ + l₂ + l₃) := by
  have e₀ : (56 + c % 8 + 256 - l₀) % 256 = 56 + c % 8 - l₀ := by omega
  have e₁ : (56 + c % 8 - l₀ + 256 - l₁) % 256 = 56 + c % 8 - l₀ - l₁ := by omega
  have e₂ : (56 + c % 8 - l₀ - l₁ + 256 - l₂) % 256 = 56 + c % 8 - l₀ - l₁ - l₂ := by omega
  rw [e₀, e₁, e₂]
  split <;> omega

/-- One round, when what it fetches lies in the source. -/
theorem decodeBlock_spec {b : ℕ} {s : Registers} (h : t.At source b s)
    (hfetch : t.fetchPos source b + 8 ≤ source.length)
    (hentered : ∀ i < 4, (t.entryAt source (4 * b + i)).isSome) :
    ∃ s', t.decodeBlock source s = .ok ((List.range' (4 * b) 4).map (t.symbol source), s') ∧
      (t.bitPos source (4 * b + 4) ≤ 8 * t.fetchPos source b → t.At source (b + 1) s') ∧
      (8 * t.fetchPos source b < t.bitPos source (4 * b + 4) → 64 ≤ s'.cachedBits) := by
  have hbits := h.bits_lt
  have hpos := h.position
  have hfirst : s.first + (63 - s.cachedBits) / 8 = t.fetchPos source b := by
    unfold fetchPos
    omega
  -- the four codes
  have h₀ : t.bitPos source (4 * b + 1) = _ := bitPos_succ (4 * b)
  have h₁ : t.bitPos source (4 * b + 2) = _ := bitPos_succ (4 * b + 1)
  have h₂ : t.bitPos source (4 * b + 3) = _ := bitPos_succ (4 * b + 2)
  have h₃ : t.bitPos source (4 * b + 4) = _ := bitPos_succ (4 * b + 3)
  have e₀ := decodeByte_window t source (4 * b)
  have e₁ := decodeByte_window t source (4 * b + 1)
  have e₂ := decodeByte_window t source (4 * b + 2)
  have e₃ := decodeByte_window t source (4 * b + 3)
  have k₀ : (t.entryAt source (4 * b)).isSome := hentered 0 (by norm_num)
  simp only [if_pos k₀] at e₀
  simp only [if_pos (hentered 1 (by norm_num))] at e₁
  simp only [if_pos (hentered 2 (by norm_num))] at e₂
  simp only [if_pos (hentered 3 (by norm_num))] at e₃
  have hl₀ := keyLength_lt t source (4 * b)
  have hl₁ := keyLength_lt t source (4 * b + 1)
  have hl₂ := keyLength_lt t source (4 * b + 2)
  have hl₃ := keyLength_lt t source (4 * b + 3)
  generalize t.keyLength source (4 * b) = l₀ at h₀ hl₀ e₀
  generalize t.keyLength source (4 * b + 1) = l₁ at h₁ hl₁ e₁
  generalize t.keyLength source (4 * b + 2) = l₂ at h₂ hl₂ e₂
  generalize t.keyLength source (4 * b + 3) = l₃ at h₃ hl₃ e₃
  refine ⟨⟨window (leNat source) (t.bitPos source (4 * b + 4)) (64 - l₀ - l₁ - l₂ - l₃),
    ((((56 + s.cachedBits % 8 + 256 - l₀) % 256 + 256 - l₁) % 256 + 256 - l₂) % 256 + 256 - l₃) %
      256, t.fetchPos source b, window (leNat source) (8 * t.fetchPos source b) 64⟩, ?_, ?_, ?_⟩
  · unfold decodeBlock
    simp only [h.refill, bind, Except.bind, or_56 _ hbits, hfirst, load_of_le hfetch]
    simp only [e₀ 64 (by norm_num), e₁ (64 - l₀) (by omega), e₂ (64 - l₀ - l₁) (by omega),
      e₃ (64 - l₀ - l₁ - l₂) (by omega)]
    rfl
  · intro hle
    unfold fetchPos at hle
    rw [bits_of_lengths hl₀ hl₁ hl₂ hl₃, if_pos (by omega)]
    refine ⟨⟨64 - l₀ - l₁ - l₂ - l₃, ?_, Nat.sub_le_of_le_add (by omega), rfl⟩, ?_, ?_, rfl⟩
    · dsimp only
      omega
    · dsimp only
      omega
    · dsimp only
      rw [show 4 * (b + 1) = 4 * b + 4 by ring]
      unfold fetchPos
      omega
  · intro hlt
    unfold fetchPos at hlt
    dsimp only
    rw [bits_of_lengths hl₀ hl₁ hl₂ hl₃, if_neg (by omega)]
    omega

/-- One round, when it meets a code without an entry. -/
theorem decodeBlock_of_not_entered {b : ℕ} {s : Registers} (h : t.At source b s)
    (hfetch : t.fetchPos source b + 8 ≤ source.length)
    (hnot : ¬ ∀ i < 4, (t.entryAt source (4 * b + i)).isSome) :
    t.decodeBlock source s = .error .undefined := by
  have hfirst : s.first + (63 - s.cachedBits) / 8 = t.fetchPos source b := by
    have hbits := h.bits_lt
    have hpos := h.position
    unfold fetchPos
    omega
  have hl₀ := keyLength_lt t source (4 * b)
  have hl₁ := keyLength_lt t source (4 * b + 1)
  have hl₂ := keyLength_lt t source (4 * b + 2)
  unfold decodeBlock
  simp only [h.refill, bind, Except.bind, hfirst, load_of_le hfetch]
  rw [decodeByte_window t source (4 * b) 64 (by norm_num)]
  by_cases k₀ : (t.entryAt source (4 * b)).isSome
  · rw [if_pos k₀]
    dsimp only
    rw [decodeByte_window t source (4 * b + 1) _ (by omega)]
    by_cases k₁ : (t.entryAt source (4 * b + 1)).isSome
    · rw [if_pos k₁]
      dsimp only
      rw [decodeByte_window t source (4 * b + 2) _ (by omega)]
      by_cases k₂ : (t.entryAt source (4 * b + 2)).isSome
      · rw [if_pos k₂]
        dsimp only
        rw [decodeByte_window t source (4 * b + 3) _ (by omega), if_neg]
        intro k₃
        refine hnot fun i hi => ?_
        interval_cases i
        · exact k₀
        · exact k₁
        · exact k₂
        · exact k₃
      · rw [if_neg k₂]
    · rw [if_neg k₁]
  · rw [if_neg k₀]

/-- The odd bytes. -/
theorem decodeOdd_window {j m : ℕ} (n : ℕ) (hm : 15 * n ≤ m) :
    ((∀ i < n, (t.entryAt source (j + i)).isSome) →
      t.decodeOdd n (window (leNat source) (t.bitPos source j) m) =
        .ok ((List.range' j n).map (t.symbol source))) ∧
    (¬ (∀ i < n, (t.entryAt source (j + i)).isSome) →
      t.decodeOdd n (window (leNat source) (t.bitPos source j) m) = .error .undefined) := by
  induction n generalizing j m with
  | zero => exact ⟨fun _ => rfl, fun hnot => absurd (fun i hi => absurd hi (Nat.not_lt_zero i)) hnot⟩
  | succ n ih =>
    have hl := keyLength_lt t source j
    rw [decodeOdd, window_mod _ _ (by omega), ← entryAt, checked_entryAt]
    by_cases hj : (t.entryAt source j).isSome
    · rw [if_pos hj]
      simp only [bind, Except.bind]
      rw [window_shiftRight, ← bitPos_succ]
      obtain ⟨hok, herr⟩ := @ih (j + 1) (m - t.keyLength source j) (by omega)
      constructor
      · intro hall
        rw [hok fun i hi => by
          have := hall (i + 1) (by omega)
          rwa [show j + (i + 1) = j + 1 + i by ring] at this]
        rfl
      · intro hnot
        rw [herr fun hall => hnot fun i hi => ?_]
        cases i with
        | zero => exact hj
        | succ i =>
          rw [show j + (i + 1) = j + 1 + i by ring]
          exact hall i (by omega)
    · rw [if_neg hj]
      exact ⟨fun hall => absurd (hall 0 (by omega)) hj, fun _ => rfl⟩

/-- One round, when what it fetches does not lie in the source. -/
theorem decodeBlock_of_not_fetched {b : ℕ} {s : Registers} (h : t.At source b s)
    (hfetch : ¬ t.fetchPos source b + 8 ≤ source.length) :
    t.decodeBlock source s = .error .undefined := by
  have hfirst : s.first + (63 - s.cachedBits) / 8 = t.fetchPos source b := by
    have hbits := h.bits_lt
    have hpos := h.position
    unfold fetchPos
    omega
  have hl₀ := keyLength_lt t source (4 * b)
  unfold decodeBlock
  simp only [h.refill, bind, Except.bind, hfirst]
  rw [decodeByte_window t source (4 * b) 64 (by norm_num)]
  by_cases k₀ : (t.entryAt source (4 * b)).isSome
  · rw [if_pos k₀]
    dsimp only
    rw [decodeByte_window t source (4 * b + 1) _ (by omega)]
    by_cases k₁ : (t.entryAt source (4 * b + 1)).isSome
    · rw [if_pos k₁]
      dsimp only
      rw [load, if_neg hfetch]
    · rw [if_neg k₁]
  · rw [if_neg k₀]

/-- Registers that count more bits than they have make the next shift undefined. -/
theorem decodeFrom_of_bits {s : Registers} (h : 64 ≤ s.cachedBits) (blocks odd : ℕ) :
    t.decodeFrom source blocks odd s = .error .undefined := by
  have hrefill : s.refill = .error .undefined := by
    rw [Registers.refill, if_neg (by omega)]
  cases blocks with
  | zero => simp [decodeFrom, hrefill, bind, Except.bind]
  | succ blocks => simp [decodeFrom, decodeBlock, hrefill, bind, Except.bind]

/-- Another round. -/
theorem ahead_succ {b blocks odd : ℕ} : t.Ahead source b (blocks + 1) odd ↔
    ((t.fetchPos source b + 8 ≤ source.length ∧
      ∀ i < 4, (t.entryAt source (4 * b + i)).isSome) ∧
      t.bitPos source (4 * b + 4) ≤ 8 * t.fetchPos source b) ∧
    t.Ahead source (b + 1) blocks odd := by
  constructor
  · intro h
    refine ⟨⟨⟨h.fetch 0 (by omega), fun i hi => h.entered i (by omega)⟩,
      h.consumed 0 (by omega)⟩, fun i hi => ?_, fun i hi => ?_, fun i hi => ?_⟩
    · rw [show b + 1 + i = b + (i + 1) by ring]
      exact h.fetch (i + 1) (by omega)
    · rw [show b + 1 + i = b + (i + 1) by ring]
      exact h.consumed (i + 1) (by omega)
    · rw [show 4 * (b + 1) + i = 4 * b + (i + 4) by ring]
      exact h.entered (i + 4) (by omega)
  · rintro ⟨⟨⟨hfetch, hentered⟩, hconsumed⟩, h⟩
    refine ⟨fun i hi => ?_, fun i hi => ?_, fun i hi => ?_⟩
    · cases i with
      | zero => exact hfetch
      | succ i =>
        rw [show b + (i + 1) = b + 1 + i by ring]
        exact h.fetch i (by omega)
    · cases i with
      | zero => exact hconsumed
      | succ i =>
        rw [show b + (i + 1) = b + 1 + i by ring]
        exact h.consumed i (by omega)
    · rcases Nat.lt_or_ge i 4 with h4 | h4
      · exact hentered i h4
      · have := h.entered (i - 4) (by omega)
        rwa [show 4 * (b + 1) + (i - 4) = 4 * b + i by omega] at this

/-- The main loop gives what a plain reader finds, or leaves its source. -/
theorem decodeFrom_spec {b : ℕ} {s : Registers} (h : t.At source b s) (blocks : ℕ) {odd : ℕ}
    (hodd : odd < 4) :
    (t.Ahead source b blocks odd → t.decodeFrom source blocks odd s =
      .ok ((List.range' (4 * b) (4 * blocks + odd)).map (t.symbol source))) ∧
    (¬ t.Ahead source b blocks odd → t.decodeFrom source blocks odd s = .error .undefined) := by
  induction blocks generalizing b s with
  | zero =>
    rw [decodeFrom]
    simp only [h.refill, bind, Except.bind]
    obtain ⟨hok, herr⟩ := @decodeOdd_window t source (4 * b) 64 odd (by omega)
    rw [Nat.mul_zero, Nat.zero_add]
    refine ⟨fun ha => hok fun i hi => ha.entered i (by omega), fun hnot => herr fun hall => hnot ?_⟩
    exact ⟨fun i hi => absurd hi (Nat.not_lt_zero i), fun i hi => absurd hi (Nat.not_lt_zero i),
      fun i hi => hall i (by omega)⟩
  | succ blocks ih =>
    rw [ahead_succ, decodeFrom]
    by_cases hfetch : t.fetchPos source b + 8 ≤ source.length
    · by_cases hentered : ∀ i < 4, (t.entryAt source (4 * b + i)).isSome
      · obtain ⟨s', hblock, hnext, hover⟩ := decodeBlock_spec h hfetch hentered
        simp only [hblock, bind, Except.bind]
        by_cases hbits : t.bitPos source (4 * b + 4) ≤ 8 * t.fetchPos source b
        · obtain ⟨hok, herr⟩ := ih (hnext hbits)
          refine ⟨fun ha => ?_, fun hnot => ?_⟩
          · have hsplit : List.range' (4 * b) (4 * (blocks + 1) + odd) =
                List.range' (4 * b) 4 ++ List.range' (4 * (b + 1)) (4 * blocks + odd) := by
              rw [show 4 * (b + 1) = 4 * b + 4 by ring, List.range'_append_1]
              congr 1
              ring
            rw [hok ha.2, hsplit, List.map_append]
            rfl
          · rw [herr fun ha => hnot ⟨⟨⟨hfetch, hentered⟩, hbits⟩, ha⟩]
        · refine ⟨fun ha => absurd ha.1.2 hbits, fun _ => ?_⟩
          rw [decodeFrom_of_bits (hover (not_le.mp hbits))]
      · refine ⟨fun ha => absurd ha.1.1.2 hentered, fun _ => ?_⟩
        simp only [decodeBlock_of_not_entered h hfetch hentered, bind, Except.bind]
    · refine ⟨fun ha => absurd ha.1.1.1 hfetch, fun _ => ?_⟩
      simp only [decodeBlock_of_not_fetched h hfetch, bind, Except.bind]

/-- **The codes of a source are decoded as they stand there if the decoder stays in its source, and
it does not say so if it leaves it.** -/
theorem writeDecodedStream_spec (t : CHuffmanDecoder) (source : List UInt8) (decodedSize : ℕ) :
    (t.InBounds source decodedSize → t.writeDecodedStream source decodedSize =
      .ok ((List.range decodedSize).map (t.symbol source))) ∧
    (¬ t.InBounds source decodedSize →
      t.writeDecodedStream source decodedSize = .error .undefined) := by
  by_cases hstart : 8 ≤ source.length
  · have hat : t.At source 0 ⟨0, 0, 0, window (leNat source) (8 * 0) 64⟩ :=
      ⟨⟨0, le_rfl, by norm_num, by simp⟩, by norm_num, rfl, rfl⟩
    obtain ⟨hok, herr⟩ := decodeFrom_spec hat (decodedSize / 4)
      (Nat.mod_lt decodedSize (show 0 < 4 by norm_num))
    rw [Nat.mul_zero, Nat.div_add_mod, ← List.range_eq_range'] at hok
    unfold writeDecodedStream
    simp only [load_of_le (show 0 + 8 ≤ source.length by omega), bind, Except.bind]
    exact ⟨fun h => hok h.ahead, fun h => herr fun ha => h ⟨hstart, ha⟩⟩
  · refine ⟨fun h => absurd h.start hstart, fun _ => ?_⟩
    rw [writeDecodedStream, load, if_neg (by omega)]
    rfl

end Rounds

/-! ### Reading the header -/

section Header

variable {s : CInputBuffer}

theorem getData_eq (s : CInputBuffer) (len : ℕ) : s.getData len =
    if s.remaining < len then .error corrupted
    else .ok (s.current, ⟨s.current.drop len, s.remaining - len⟩) := rfl

theorem getByte_of_pos (hs : s.remaining ≤ s.current.length) (h : 1 ≤ s.remaining) :
    ∃ b, s.current.head? = some b ∧
      s.getByte = .ok (b, ⟨s.current.drop 1, s.remaining - 1⟩) := by
  rcases hc : s.current with _ | ⟨b, rest⟩
  · rw [hc] at hs
    simp only [List.length_nil] at hs
    omega
  · refine ⟨b, rfl, ?_⟩
    unfold CInputBuffer.getByte
    rw [getData_eq, if_neg (by omega), hc]
    rfl

theorem getByte_of_zero (h : s.remaining = 0) : s.getByte = .error corrupted := by
  unfold CInputBuffer.getByte
  rw [getData_eq, if_pos (by omega)]
  rfl

theorem getDWORD_eq (hs : s.remaining ≤ s.current.length) : s.getDWORD =
    if s.remaining < 4 then .error corrupted
    else .ok (leNat (s.current.take 4), ⟨s.current.drop 4, s.remaining - 4⟩) := by
  unfold CInputBuffer.getDWORD
  rw [getData_eq]
  split
  · rfl
  · simp only [bind, Except.bind]
    rw [bytesAt, if_pos (by omega)]
    rfl

theorem getBytes_eq (hs : s.remaining ≤ s.current.length) (n : ℕ) : s.getBytes n =
    if s.remaining < n then .error corrupted
    else .ok (s.current.take n, ⟨s.current.drop n, s.remaining - n⟩) := by
  induction n generalizing s with
  | zero => simp [CInputBuffer.getBytes]
  | succ n ih =>
    rw [CInputBuffer.getBytes]
    rcases Nat.eq_zero_or_pos s.remaining with h0 | hpos
    · rw [getByte_of_zero h0, if_pos (by omega)]
      rfl
    · obtain ⟨b, hb, hget⟩ := getByte_of_pos hs hpos
      obtain ⟨rest, hrest⟩ := List.head?_eq_some_iff.mp hb
      simp only [hget, bind, Except.bind]
      rw [ih (by simp only [List.length_drop]; omega)]
      by_cases hlt : s.remaining < n + 1
      · rw [if_pos (by dsimp only; omega), if_pos hlt]
      · rw [if_neg (by dsimp only; omega), if_neg hlt, hrest]
        simp [pure, Except.pure, Nat.sub_sub, Nat.add_comm]

/-- The number of entries of a table. -/
def entryCount (table : List UInt8) : ℕ :=
  match table.head? with
  | none => 0
  | some b => if b = 0 then 256 else b.toNat

/-- The number of bytes of a table. -/
def tableSize (table : List UInt8) : ℕ := 1 + entryCount table + (entryCount table + 1) / 2

/-- A decoder with the entries of a table. -/
def withTable (t : CHuffmanDecoder) (table : List UInt8) : CHuffmanDecoder :=
  t.fillTable ((table.drop 1).take (entryCount table))
    ((((table.drop (1 + entryCount table)).take ((entryCount table + 1) / 2))).flatMap keyLengths)

theorem buildDecodeTable_eq (t : CHuffmanDecoder) (hs : s.remaining ≤ s.current.length) :
    t.buildDecodeTable s =
      if s.remaining < tableSize s.current then .error corrupted
      else .ok (t.withTable s.current,
        ⟨s.current.drop (tableSize s.current), s.remaining - tableSize s.current⟩) := by
  unfold buildDecodeTable
  rcases Nat.eq_zero_or_pos s.remaining with h0 | hpos
  · rw [getByte_of_zero h0, if_pos (by unfold tableSize; omega)]
    rfl
  · obtain ⟨b, hb, hget⟩ := getByte_of_pos hs hpos
    have hcount : (if b = 0 then 256 else b.toNat) = entryCount s.current := by
      rw [entryCount, hb]
    simp only [hget, bind, Except.bind, hcount]
    rw [getBytes_eq (by simp only [List.length_drop]; omega)]
    by_cases h₁ : s.remaining - 1 < entryCount s.current
    · rw [if_pos h₁, if_pos (by unfold tableSize; omega)]
    · rw [if_neg h₁]
      simp only []
      rw [getBytes_eq (by simp only [List.length_drop]; omega)]
      by_cases h₂ : s.remaining - 1 - entryCount s.current < (entryCount s.current + 1) / 2
      · rw [if_pos h₂, if_pos (by unfold tableSize; omega)]
      · rw [if_neg h₂, if_neg (by unfold tableSize; omega)]
        simp only [pure, Except.pure, List.drop_drop, Nat.sub_sub]
        rfl

end Header

/-! ### One block -/

section Block

variable (t : CHuffmanDecoder) (bytes : List UInt8) (remaining room : ℕ) (target : COutputBuffer)

/-- The first number of a block. -/
def decodedSizeOf (bytes : List UInt8) : ℕ := leNat (bytes.take 4)

/-- The second number of a block. -/
def encodedSizeOf (bytes : List UInt8) : ℕ := leNat ((bytes.drop 4).take 4)

/-- The number of bytes in front of the codes of a block. -/
def headerLen (bytes : List UInt8) : ℕ := 8 + tableSize (bytes.drop 8)

/-- A block with plain data behind its header. -/
def IsPlain (bytes : List UInt8) : Prop :=
  encodedSizeOf bytes = (decodedSizeOf bytes + 9) % 2 ^ 32 ∧ bytes[8]? = some 0

/-- A block without data. -/
structure EmptyBlock : Prop where
  empty : decodedSizeOf bytes = 0
  complete : 8 ≤ remaining

/-- A block with plain data that lies in the source as a whole and fits into the target. -/
structure PlainBlock : Prop where
  nonempty : decodedSizeOf bytes ≠ 0
  plain : IsPlain bytes
  complete : 9 + decodedSizeOf bytes ≤ remaining
  fits : decodedSizeOf bytes ≤ room

/-- A block with codes that lies in the source as a whole and whose data fits into the target. -/
structure CodedBlock : Prop where
  nonempty : decodedSizeOf bytes ≠ 0
  not_plain : ¬ IsPlain bytes
  header : headerLen bytes ≤ encodedSizeOf bytes
  complete : encodedSizeOf bytes ≤ remaining
  fits : decodedSizeOf bytes ≤ room

/-- The block is refused with an exception, or exactly as many bytes are written to the target as
its header tells. -/
def Settled (r : Except Fault (CHuffmanDecoder × CInputBuffer × COutputBuffer)) : Prop :=
  (∃ text, r = .error (.streamException text)) ∨
    ∃ t' source' written, written.length = decodedSizeOf bytes ∧
      r = .ok (t', source', ⟨target.data ++ written, target.remaining - written.length⟩)

variable {t bytes remaining room target}

theorem headerLen_pos (bytes : List UInt8) : 9 ≤ headerLen bytes := by
  unfold headerLen tableSize
  omega

/-- A block whose sizes cannot be read. -/
theorem decode_of_short (h : remaining ≤ bytes.length) (h8 : remaining < 8) :
    t.decode ⟨bytes, remaining⟩ target = .error corrupted := by
  unfold decode
  simp only [bind, Except.bind]
  rw [getDWORD_eq h]
  by_cases h4 : remaining < 4
  · rw [if_pos h4]
  · rw [if_neg h4]
    simp only []
    rw [getDWORD_eq (by simp only [List.length_drop]; omega), if_pos (by dsimp only; omega)]

/-- A block whose sizes are read. -/
theorem decode_of_sizes (h : remaining ≤ bytes.length) (h8 : 8 ≤ remaining) :
    t.decode ⟨bytes, remaining⟩ target =
      if decodedSizeOf bytes = 0 then .ok (t, ⟨bytes.drop 8, remaining - 8⟩, target)
      else (do
        let unpacked ← isUnpacked (decodedSizeOf bytes) (encodedSizeOf bytes)
          ⟨bytes.drop 8, remaining - 8⟩
        if unpacked then
          t.copyPlain (decodedSizeOf bytes) ⟨bytes.drop 8, remaining - 8⟩ target
        else
          t.decodeCodes remaining (decodedSizeOf bytes) (encodedSizeOf bytes)
            ⟨bytes.drop 8, remaining - 8⟩ target) := by
  unfold decode
  simp only [bind, Except.bind]
  rw [getDWORD_eq h, if_neg (by dsimp only; omega)]
  simp only []
  rw [getDWORD_eq (by simp only [List.length_drop]; omega), if_neg (by dsimp only; omega)]
  simp only [List.drop_drop, Nat.sub_sub]
  rfl

/-- Plain data. -/
theorem copyPlain_eq {source : CInputBuffer} (hs : source.remaining ≤ source.current.length) :
    t.copyPlain (decodedSizeOf bytes) source target =
      if source.remaining < 1 + decodedSizeOf bytes then .error corrupted
      else if target.remaining < decodedSizeOf bytes then
        .error (.streamException "huffman buffer overflow")
      else .ok (t, ⟨source.current.drop (1 + decodedSizeOf bytes),
        source.remaining - (1 + decodedSizeOf bytes)⟩,
        ⟨target.data ++ (source.current.drop 1).take (decodedSizeOf bytes),
          target.remaining - decodedSizeOf bytes⟩) := by
  unfold copyPlain
  simp only [bind, Except.bind]
  rcases Nat.eq_zero_or_pos source.remaining with h0 | hpos
  · rw [getByte_of_zero h0, if_pos (by omega)]
  obtain ⟨b, -, hget⟩ := getByte_of_pos hs hpos
  simp only [hget]
  rw [getData_eq]
  dsimp only
  by_cases hlt : source.remaining - 1 < decodedSizeOf bytes
  · rw [if_pos hlt, if_pos (by omega)]
  rw [if_neg hlt, if_neg (by omega)]
  dsimp only
  rw [COutputBuffer.getBuffer]
  by_cases hroom : target.remaining < decodedSizeOf bytes
  · rw [if_pos hroom, if_pos hroom]
  rw [if_neg hroom, if_neg hroom]
  dsimp only
  rw [bytesAt, if_pos (by rw [List.length_drop]; omega), List.drop_drop, Nat.sub_sub]
  rfl

/-- Codes behind a table. -/
theorem decodeCodes_eq (h : remaining ≤ bytes.length) (h8 : 8 ≤ remaining) :
    t.decodeCodes remaining (decodedSizeOf bytes) (encodedSizeOf bytes)
        ⟨bytes.drop 8, remaining - 8⟩ target =
      if remaining < headerLen bytes ∨ encodedSizeOf bytes < headerLen bytes ∨
          remaining < encodedSizeOf bytes then .error corrupted
      else if target.remaining < decodedSizeOf bytes then
        .error (.streamException "huffman buffer overflow")
      else (do
        let written ← (t.withTable (bytes.drop 8)).writeDecodedStream (bytes.drop (headerLen bytes))
          (decodedSizeOf bytes)
        .ok (t.withTable (bytes.drop 8), ⟨bytes.drop (encodedSizeOf bytes),
          remaining - encodedSizeOf bytes⟩, ⟨target.data ++ written,
          target.remaining - decodedSizeOf bytes⟩)) := by
  have hhead := headerLen_pos bytes
  unfold decodeCodes
  simp only [bind, Except.bind]
  rw [buildDecodeTable_eq t (by simp only [List.length_drop]; omega)]
  dsimp only
  by_cases htable : remaining - 8 < tableSize (bytes.drop 8)
  · rw [if_pos htable, if_pos (.inl (by unfold headerLen; omega))]
  rw [if_neg htable]
  have hlen : remaining - (remaining - 8 - tableSize (bytes.drop 8)) = headerLen bytes := by
    unfold headerLen
    omega
  have hrest : remaining - 8 - tableSize (bytes.drop 8) = remaining - headerLen bytes := by
    unfold headerLen
    omega
  have hdrop : (bytes.drop 8).drop (tableSize (bytes.drop 8)) = bytes.drop (headerLen bytes) := by
    rw [List.drop_drop, headerLen]
  have hcomplete : headerLen bytes ≤ remaining := by
    unfold headerLen
    omega
  simp only [hlen, hdrop]
  rw [hrest]
  by_cases hsmall : encodedSizeOf bytes < headerLen bytes
  · rw [if_pos hsmall, if_pos (.inr (.inl hsmall))]
  rw [if_neg hsmall, getData_eq]
  dsimp only
  by_cases hbig : remaining < encodedSizeOf bytes
  · rw [if_pos (by omega), if_pos (.inr (.inr hbig))]
  rw [if_neg (by omega), if_neg (by omega)]
  dsimp only
  rw [COutputBuffer.getBuffer]
  by_cases hroom : target.remaining < decodedSizeOf bytes
  · rw [if_pos hroom, if_pos hroom]
  · rw [if_neg hroom, if_neg hroom]
    rw [List.drop_drop, show headerLen bytes + (encodedSizeOf bytes - headerLen bytes) =
      encodedSizeOf bytes by omega, show remaining - headerLen bytes -
      (encodedSizeOf bytes - headerLen bytes) = remaining - encodedSizeOf bytes by omega]
    rfl

/-- The test for plain data. -/
theorem isUnpacked_cases (h : remaining ≤ bytes.length) (h8 : 8 ≤ remaining) :
    (isUnpacked (decodedSizeOf bytes) (encodedSizeOf bytes) ⟨bytes.drop 8, remaining - 8⟩ =
        .ok true ∧ IsPlain bytes) ∨
      (isUnpacked (decodedSizeOf bytes) (encodedSizeOf bytes) ⟨bytes.drop 8, remaining - 8⟩ =
        .ok false ∧ ¬ IsPlain bytes) ∨
      (isUnpacked (decodedSizeOf bytes) (encodedSizeOf bytes) ⟨bytes.drop 8, remaining - 8⟩ =
        .error corrupted ∧ remaining < 9) := by
  unfold isUnpacked IsPlain
  by_cases hsize : encodedSizeOf bytes = (decodedSizeOf bytes + 9) % 2 ^ 32
  · rw [if_pos hsize, CInputBuffer.peekByte]
    dsimp only
    by_cases h9 : remaining - 8 < 1
    · rw [if_pos h9]
      exact .inr (.inr ⟨rfl, by omega⟩)
    have hlt : 8 < bytes.length := by omega
    rw [if_neg h9, List.head?_drop, List.getElem?_eq_getElem hlt]
    by_cases hzero : bytes[8] = 0
    · exact .inl ⟨by rw [hzero]; rfl, hsize, by rw [hzero]⟩
    · refine .inr (.inl ⟨?_, fun hp => hzero (Option.some.inj hp.2)⟩)
      simp [checked, Except.map, hzero]
  · rw [if_neg hsize]
    exact .inr (.inl ⟨rfl, fun hp => hsize hp.1⟩)

/-- A block without data. -/
theorem decode_empty (h : remaining ≤ bytes.length) (hb : EmptyBlock bytes remaining) :
    t.decode ⟨bytes, remaining⟩ target = .ok (t, ⟨bytes.drop 8, remaining - 8⟩, target) := by
  rw [decode_of_sizes h hb.complete, if_pos hb.empty]

/-- A block with plain data. -/
theorem decode_plain (h : remaining ≤ bytes.length)
    (hb : PlainBlock bytes remaining target.remaining) :
    t.decode ⟨bytes, remaining⟩ target =
      .ok (t, ⟨bytes.drop (9 + decodedSizeOf bytes), remaining - (9 + decodedSizeOf bytes)⟩,
        ⟨target.data ++ (bytes.drop 9).take (decodedSizeOf bytes),
          target.remaining - decodedSizeOf bytes⟩) := by
  have hcomplete := hb.complete
  have hfits := hb.fits
  rw [decode_of_sizes h (by omega), if_neg hb.nonempty]
  rcases isUnpacked_cases h (by omega) with ⟨htest, -⟩ | ⟨-, hnot⟩ | ⟨-, h9⟩
  · simp only [htest, bind, Except.bind, if_true]
    rw [copyPlain_eq (by simp only [List.length_drop]; omega), if_neg (by dsimp only; omega),
      if_neg (by omega)]
    simp only [List.drop_drop, Nat.sub_sub, ← Nat.add_assoc]
  · exact absurd hb.plain hnot
  · omega

/-- A block with codes is decoded by the main loop. -/
theorem decode_coded (h : remaining ≤ bytes.length)
    (hb : CodedBlock bytes remaining target.remaining) :
    t.decode ⟨bytes, remaining⟩ target = (do
      let written ← (t.withTable (bytes.drop 8)).writeDecodedStream (bytes.drop (headerLen bytes))
        (decodedSizeOf bytes)
      .ok (t.withTable (bytes.drop 8), ⟨bytes.drop (encodedSizeOf bytes),
        remaining - encodedSizeOf bytes⟩, ⟨target.data ++ written,
        target.remaining - decodedSizeOf bytes⟩)) := by
  have hhead := headerLen_pos bytes
  have hheader := hb.header
  have hcomplete := hb.complete
  have hfits := hb.fits
  rw [decode_of_sizes h (by omega), if_neg hb.nonempty]
  rcases isUnpacked_cases h (by omega) with ⟨-, hplain⟩ | ⟨htest, -⟩ | ⟨-, h9⟩
  · exact absurd hplain hb.not_plain
  · simp only [htest, bind, Except.bind]
    rw [if_neg (by simp), decodeCodes_eq h (by omega), if_neg (by omega), if_neg (by omega)]
    rfl
  · omega

/-- Any other block is refused. -/
theorem decode_refused (h : remaining ≤ bytes.length) (hempty : ¬ EmptyBlock bytes remaining)
    (hplain : ¬ PlainBlock bytes remaining target.remaining)
    (hcoded : ¬ CodedBlock bytes remaining target.remaining) :
    ∃ text, t.decode ⟨bytes, remaining⟩ target = .error (.streamException text) := by
  by_cases h8 : remaining < 8
  · exact ⟨_, decode_of_short h h8⟩
  rw [decode_of_sizes h (by omega)]
  have hne : decodedSizeOf bytes ≠ 0 := fun h0 => hempty ⟨h0, by omega⟩
  rw [if_neg hne]
  rcases isUnpacked_cases h (by omega) with ⟨htest, hp⟩ | ⟨htest, hp⟩ | ⟨htest, -⟩
  · simp only [htest, bind, Except.bind, if_true]
    rw [copyPlain_eq (by simp only [List.length_drop]; omega)]
    by_cases hlt : remaining - 8 < 1 + decodedSizeOf bytes
    · exact ⟨_, if_pos hlt⟩
    · rw [if_neg hlt, if_pos]
      · exact ⟨_, rfl⟩
      · by_contra hroom
        exact hplain ⟨hne, hp, by omega, by omega⟩
  · simp only [htest, bind, Except.bind]
    rw [if_neg (by simp), decodeCodes_eq h (by omega)]
    by_cases hbad : remaining < headerLen bytes ∨ encodedSizeOf bytes < headerLen bytes ∨
        remaining < encodedSizeOf bytes
    · exact ⟨_, if_pos hbad⟩
    · rw [if_neg hbad, if_pos]
      · exact ⟨_, rfl⟩
      · by_contra hroom
        exact hcoded ⟨hne, hp, by omega, by omega, by omega⟩
  · simp only [htest, bind, Except.bind]
    exact ⟨_, rfl⟩

end Block

/-! ### Any source -/

end CHuffmanDecoder

end TortoiseSvn.LogCache
