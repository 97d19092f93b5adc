import Monzero.TxExtraCodec

/-!
What the carrier hash of a transaction binds. The extra field is hashed as its fields are
written again without the envelope, so the hash covers the bytes outside the envelope as far
as the fields are written back as they were read: always, unless the last one has a count
that the end of the extra cuts off.
-/
namespace Monzero.CarrierExtra

open TxExtra TxExtraCodec List

/-- A field of the first string starts where the second one does. -/
inductive Boundary : List UInt8 → List UInt8 → Prop
  | here (s : List UInt8) : Boundary s s
  | after {s mid t : List UInt8} {f : TxExtraField} (read : readField s = some (f, mid))
      (later : Boundary mid t) : Boundary s t

/-- The last field of an extra string is a counted one whose count is cut off. -/
def EndsCutOff (e : List UInt8) : Prop := ∃ t, Boundary e t ∧ CutOff t

theorem endsCutOff_nil : ¬EndsCutOff [] := by
  rintro ⟨t, hboundary, tag, -, k, rfl⟩
  cases hboundary with
  | after read later => cases read

variable {s e data : List UInt8} {fs : List TxExtraField}

theorem endsCutOff_iff {rest : List UInt8} {f : TxExtraField}
    (h : readField s = some (f, rest)) : EndsCutOff s ↔ CutOff s ∨ EndsCutOff rest := by
  constructor
  · rintro ⟨t, hboundary, hcut⟩
    cases hboundary with
    | here => exact Or.inl hcut
    | after read later =>
      rw [h] at read
      cases read
      exact Or.inr ⟨t, later, hcut⟩
  · rintro (hcut | ⟨t, hboundary, hcut⟩)
    · exact ⟨s, .here s, hcut⟩
    · exact ⟨t, .after h hboundary, hcut⟩

theorem parsed_written (h : Parsed e fs) : fs.flatMap writeField = e ↔ ¬EndsCutOff e := by
  induction h with
  | nil => exact ⟨fun _ => endsCutOff_nil, fun _ => rfl⟩
  | cons read later ih =>
    rename_i s rest f fs
    rw [flatMap_cons, endsCutOff_iff read, not_or, ← ih]
    rcases readField_spec s rest f read with hs | ⟨hrest, hcut, -⟩
    · have hwhole : ¬CutOff s := fun hcut => writeField_of_cutOff s rest f hcut read hs
      rw [hs] at hwhole ⊢
      simp [hwhole]
    · refine iff_of_false ?_ fun hboth => hboth.1 hcut
      intro heq
      apply writeField_of_cutOff s rest f hcut read
      subst hrest
      cases later with
      | nil => exact heq.symm
      | cons read' later' => cases read'

theorem mem_envelopes : data ∈ envelopes fs ↔ .monzeroAsset data ∈ fs := by
  rw [envelopes, mem_filterMap]
  constructor
  · rintro ⟨f, hf, hdata⟩
    cases f with
    | monzeroAsset d =>
      cases hdata
      exact hf
    | _ => cases hdata
  · intro hf
    exact ⟨_, hf, rfl⟩

theorem filter_plain {l : List TxExtraField} (hl : envelopes l = []) :
    (l.filter fun field => !isEnvelope field) = l := by
  rw [filter_eq_self]
  intro f hf
  cases f with
  | monzeroAsset d =>
    have hmem : d ∈ envelopes l := mem_envelopes.mpr hf
    rw [hl] at hmem
    cases hmem
  | _ => rfl

theorem normalizedExtra_of_one (msg : String) {before after : List TxExtraField}
    (h : parseTxExtra e = some (before ++ .monzeroAsset data :: after))
    (hone : envelopes (before ++ after) = []) : normalizedExtra e msg =
      .ok (before.flatMap writeField ++ after.flatMap writeField) := by
  have hsplit : envelopes before = [] ∧ envelopes after = [] := by
    rw [envelopes, filterMap_append, append_eq_nil_iff] at hone
    exact hone
  have hall : envelopes (before ++ .monzeroAsset data :: after) = [data] := by
    show List.filterMap _ _ = _
    rw [filterMap_append, filterMap_cons]
    show envelopes before ++ data :: envelopes after = [data]
    rw [hsplit.1, hsplit.2]
    rfl
  simp only [normalizedExtra, h, hall, length_singleton, gt_iff_lt, lt_irrefl,
    Checked.failIf_of_not, not_false_eq_true, Checked.ok_bind, filter_append,
    flatMap_append, filter_plain hsplit.1]
  rw [filter_cons_of_neg (by simp [isEnvelope]), filter_plain hsplit.2]
  rfl

/-- The bytes `env` of an envelope of an extra string, with those before and after it. -/
structure EnvelopeAt (e a env b : List UInt8) : Prop where
  split : e = a ++ (env ++ b)
  boundary : Boundary e (env ++ b)
  read : ∃ data, readField (env ++ b) = some (.monzeroAsset data, b)

theorem parsed_boundary (e t : List UInt8) (fs : List TxExtraField)
    (hboundary : Boundary e t) (h : Parsed e fs) (ht : t ≠ []) :
    ∃ before later, fs = before ++ later ∧ Parsed t later ∧ e = before.flatMap writeField ++ t := by
  induction hboundary generalizing fs with
  | here s => exact ⟨[], fs, rfl, h, rfl⟩
  | after read later ih =>
    rename_i s mid t f
    cases h with
    | nil => cases read
    | cons read' rest =>
      rw [read] at read'
      cases read'
      obtain ⟨before, others, rfl, hothers, hmid⟩ := ih _ rest ht
      refine ⟨f :: before, others, rfl, hothers, ?_⟩
      rcases readField_spec s mid f read with hs | ⟨hnil, -⟩
      · rw [hs, flatMap_cons, append_assoc, ← hmid]
      · rw [hnil] at hmid
        exact absurd (append_eq_nil_iff.mp hmid.symm).2 ht

theorem boundary_trans {t u : List UInt8} (h : Boundary s t) (h' : Boundary t u) :
    Boundary s u := by
  induction h with
  | here s => exact h'
  | after read later ih => exact .after read (ih h')

theorem normalizedExtra_cut {a env b : List UInt8} (msg : String) (hprs : parseTxExtra e = some fs)
    (hone : (envelopes fs).length = 1) (hat : EnvelopeAt e a env b) (hwhole : ¬EndsCutOff e) :
    normalizedExtra e msg = .ok (a ++ b) := by
  obtain ⟨hsplit, hboundary, data, hread⟩ := hat
  have hne : env ++ b ≠ [] := by
    intro hnil
    rw [hnil] at hread
    cases hread
  obtain ⟨before, later, rfl, hlater, he⟩ := parsed_boundary e (env ++ b) fs hboundary
    (parsed_of_readFields _ e fs hprs) hne
  obtain ⟨after, rfl, hafter⟩ : ∃ after, later = .monzeroAsset data :: after ∧ Parsed b after := by
    generalize env ++ b = t at hlater hread
    cases hlater with
    | nil => cases hread
    | cons read rest =>
      rw [hread] at read
      cases read
      exact ⟨_, rfl, rest⟩
  have hb : after.flatMap writeField = b := by
    refine (parsed_written hafter).mpr ?_
    rintro ⟨t, ht, hcut⟩
    exact hwhole ⟨t, boundary_trans hboundary (.after hread ht), hcut⟩
  have ha : before.flatMap writeField = a := append_cancel_right (he.symm.trans hsplit)
  have hothers : envelopes (before ++ after) = [] := by
    have hcnt : (envelopes (before ++ after)).length + 1 =
        (envelopes (before ++ .monzeroAsset data :: after)).length := by
      simp only [envelopes, filterMap_append, filterMap_cons, length_append, length_cons]
      omega
    apply length_eq_zero_iff.mp
    omega
  rw [normalizedExtra_of_one msg hprs hothers, ha, hb]

/-- The carrier hash binds the extra bytes outside the envelope exactly when no count is cut
off at the end: the fields are then written back as the bytes they were read from, the
normalised extra is the extra without the bytes of its envelope, and two transactions whose
carriers do not collide and whose envelopes start at the same place differ nowhere else. -/
theorem extra_written_back_iff (e : List UInt8) (fields : List TxExtraField)
    (hparse : parseTxExtra e = some fields) :
    (fields.flatMap writeField = e ↔ ¬EndsCutOff e) ∧
    (∀ (a env b : List UInt8) (message : String), (envelopes fields).length = 1 →
      EnvelopeAt e a env b → ¬EndsCutOff e → normalizedExtra e message = .ok (a ++ b)) ∧
    ∀ (H : TransactionHashes) (tx tx' : TransactionPrefix) (a env b a' env' b' : List UInt8)
      (fields' : List TxExtraField), tx.extra = e →
      (envelopes fields).length = 1 → EnvelopeAt e a env b → ¬EndsCutOff e →
      parseTxExtra tx'.extra = some fields' → (envelopes fields').length = 1 →
      EnvelopeAt tx'.extra a' env' b' → ¬EndsCutOff tx'.extra →
      (H.prefixHash { tx with extra := a ++ b } = H.prefixHash { tx' with extra := a' ++ b' } →
        ({ tx with extra := a ++ b } : TransactionPrefix) = { tx' with extra := a' ++ b' }) →
      getTransactionAssetCarrierHash H tx = getTransactionAssetCarrierHash H tx' →
      a.length = a'.length → a = a' ∧ b = b' := by
  refine ⟨parsed_written (parsed_of_readFields _ e fields hparse),
    fun a env b message => normalizedExtra_cut message hparse, ?_⟩
  rintro H tx tx' a env b a' env' b' fields' rfl hone hat hwhole hparse' hone' hat' hwhole' hfree
    hcarrier hlength
  have hnorm := normalizedExtra_cut
    "failed to parse transaction extra for asset carrier" hparse hone hat hwhole
  have hnorm' := normalizedExtra_cut
    "failed to parse transaction extra for asset carrier" hparse' hone' hat' hwhole'
  simp only [getTransactionAssetCarrierHash, hnorm, hnorm', Checked.ok_bind] at hcarrier
  have heq := congrArg TransactionPrefix.extra (hfree (Except.ok.inj hcarrier))
  exact append_inj heq hlength

/-- A transaction prefix with an extra string. -/
def prefixWith (extra : List UInt8) : TransactionPrefix where
  unlockTime := 0
  vin := []
  extra := extra
  other := []

theorem extra_written_back_iff_sample :
    parseTxExtra [0x02, 0x01, 0x07, 0x7A, 0x01, 0x05] = some [.nonce [0x07], .monzeroAsset [0x05]] ∧
      ¬EndsCutOff [0x02, 0x01, 0x07, 0x7A, 0x01, 0x05] ∧
      normalizedExtra [0x02, 0x01, 0x07, 0x7A, 0x01, 0x05] "" = .ok [0x02, 0x01, 0x07] := by
  have hparse : parseTxExtra [0x02, 0x01, 0x07, 0x7A, 0x01, 0x05] =
      some [.nonce [0x07], .monzeroAsset [0x05]] := by decide
  obtain ⟨hiff, hcut, -⟩ := extra_written_back_iff _ _ hparse
  have hwhole := hiff.mp (by decide)
  refine ⟨hparse, hwhole, ?_⟩
  exact hcut [0x02, 0x01, 0x07] [0x7A, 0x01, 0x05] [] "" rfl
    ⟨rfl, .after (f := .nonce [0x07]) (by decide) (.here _), [0x05], by decide⟩ hwhole

/-- A nonce whose count is cut off reads as an empty one and is written with another byte, so
two transactions that differ outside their envelopes have one carrier hash. -/
theorem extra_not_written_back :
    parseTxExtra [0x02, 0x80] = some [.nonce []] ∧
      [TxExtraField.nonce []].flatMap writeField ≠ [0x02, 0x80] ∧
      ∀ H, getTransactionAssetCarrierHash H (prefixWith [0x7A, 0x00, 0x02, 0x80]) =
          getTransactionAssetCarrierHash H (prefixWith [0x7A, 0x00, 0x02, 0x00]) ∧
        EnvelopeAt [0x7A, 0x00, 0x02, 0x80] [] [0x7A, 0x00] [0x02, 0x80] ∧
        EnvelopeAt [0x7A, 0x00, 0x02, 0x00] [] [0x7A, 0x00] [0x02, 0x00] := by
  refine ⟨by decide, by decide, fun H => ⟨rfl, ?_, ?_⟩⟩
  · exact ⟨rfl, .here _, [], by decide⟩
  · exact ⟨rfl, .here _, [], by decide⟩

end Monzero.CarrierExtra
