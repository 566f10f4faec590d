import ZalemCoin.Lib.DecimalText
import ZalemCoin.Network.Sporks

/-!
# What a spork signature is for

The text that is signed for a spork message is the decimal texts of its three numbers, one after the
other. Messages whose digits are cut up differently share it, and with it their signatures.
-/

namespace ZalemCoin.Network

open Chain Lib

def CSporkMessage.fields (spork : CSporkMessage) : List ℤ :=
  [spork.nSporkID, spork.nValue, spork.nTimeSigned]

/-- A signature belongs to one text: it is not verified for two, and it is verified for no other one
than that which it has been made for. -/
structure SignatureBinds (ctx : SporkContext) : Prop where
  verified : ∀ vchSig strMessage strMessage', ctx.VerifyMessage vchSig strMessage = true →
    ctx.VerifyMessage vchSig strMessage' = true → strMessage = strMessage'
  made : ∀ strPrivKey vchSig strMessage strMessage',
    ctx.SignMessage strPrivKey strMessage = some vchSig →
      ctx.VerifyMessage vchSig strMessage' = true → strMessage = strMessage'

def SignatureOf (ctx : SporkContext) (spork : CSporkMessage) (vchSig : List UInt8) : Prop :=
  CheckSignature ctx { spork with vchSig := vchSig } = true ∨
    ∃ strPrivKey, ctx.SignMessage strPrivKey spork.strMessage = some vchSig

/-- Two messages with different numbers have different texts, and no signature of the first one
passes the check of the second one. -/
def Unambiguous (ctx : SporkContext) (spork spork' : CSporkMessage) : Prop :=
  spork.fields ≠ spork'.fields → spork.strMessage ≠ spork'.strMessage ∧
    ∀ vchSig, SignatureOf ctx spork vchSig →
      CheckSignature ctx { spork' with vchSig := vchSig } = false

section

variable {ctx : SporkContext} {spork spork' : CSporkMessage}

theorem toList_strMessage (spork : CSporkMessage) :
    spork.strMessage.toList = Decimal.text spork.fields := by
  unfold CSporkMessage.strMessage CSporkMessage.fields Decimal.text Decimal.chars
  simp [String.toList_append]

theorem strMessage_eq_iff :
    spork.strMessage = spork'.strMessage ↔ Decimal.SameDigits spork.fields spork'.fields := by
  rw [← String.toList_inj, toList_strMessage, toList_strMessage, Decimal.text_eq_iff]

theorem checkSignature_eq (h : Decimal.SameDigits spork.fields spork'.fields)
    (vchSig : List UInt8) :
    CheckSignature ctx { spork with vchSig := vchSig }
      = CheckSignature ctx { spork' with vchSig := vchSig } :=
  congrArg (ctx.VerifyMessage vchSig) (strMessage_eq_iff.mpr h)

theorem fields_eq_of_digitCount (h : Decimal.SameDigits spork.fields spork'.fields)
    (hid : Decimal.digitCount spork.nSporkID = Decimal.digitCount spork'.nSporkID)
    (htime : Decimal.digitCount spork.nTimeSigned = Decimal.digitCount spork'.nTimeSigned) :
    spork.fields = spork'.fields := by
  refine h.eq_of_digitCount ?_
  have htotal := h.count
  simp only [Decimal.count, CSporkMessage.fields, List.map_cons, List.map_nil, List.sum_cons,
    List.sum_nil] at htotal ⊢
  rw [hid, htime, show Decimal.digitCount spork.nValue = Decimal.digitCount spork'.nValue by omega]

/-- Two messages are unambiguous exactly when they do not have the same digits, cut up differently. -/
theorem spork_unambiguous_iff (ctx : SporkContext) (hbinds : SignatureBinds ctx)
    (spork spork' : CSporkMessage) :
    Unambiguous ctx spork spork' ↔
      (Decimal.SameDigits spork.fields spork'.fields → spork.fields = spork'.fields) := by
  constructor
  · intro h hsame
    by_contra hne
    exact (h hne).1 (strMessage_eq_iff.mpr hsame)
  · intro h hne
    have htext : spork.strMessage ≠ spork'.strMessage :=
      fun heq => hne (h (strMessage_eq_iff.mp heq))
    refine ⟨htext, fun vchSig hsig => ?_⟩
    by_contra hcheck
    rw [Bool.not_eq_false] at hcheck
    rcases hsig with hsigned | ⟨strPrivKey, hmade⟩
    · exact htext (hbinds.verified vchSig _ _ hsigned hcheck)
    · exact htext (hbinds.made strPrivKey vchSig _ _ hmade hcheck)

end

/-! ## Two messages with the same text -/

def offMessage : CSporkMessage :=
  ⟨[], SPORK_1_FLOATINGCITY_PAYMENTS_ENFORCEMENT, 4070908800, 1554091740⟩

def movedMessage : CSporkMessage :=
  ⟨[], SPORK_1_FLOATINGCITY_PAYMENTS_ENFORCEMENT, 407090, 88001554091740⟩

/-- Whoever has the signature of the first message can switch the enforcement on with it. -/
theorem offMessage_moved :
    offMessage.fields ≠ movedMessage.fields ∧ offMessage.strMessage = movedMessage.strMessage ∧
      (∀ ctx vchSig, CheckSignature ctx { offMessage with vchSig := vchSig }
        = CheckSignature ctx { movedMessage with vchSig := vchSig }) ∧
      IsSporkActive (receive trustingContext sporklessNode [offMessage]) 1600000000
        SPORK_1_FLOATINGCITY_PAYMENTS_ENFORCEMENT = false ∧
      IsSporkActive (receive trustingContext sporklessNode [offMessage, movedMessage]) 1600000000
        SPORK_1_FLOATINGCITY_PAYMENTS_ENFORCEMENT = true := by
  have hsame : Decimal.SameDigits offMessage.fields movedMessage.fields := by
    constructor <;> decide
  refine ⟨by decide, strMessage_eq_iff.mpr hsame, fun ctx vchSig => checkSignature_eq hsame vchSig,
    ?_, ?_⟩ <;> decide

def literalContext : SporkContext where
  GetHash m := BitVec.ofInt 256 m.nValue
  VerifyMessage vchSig strMessage := vchSig == strMessage.toByteArray.data.toList
  SignMessage _ strMessage := some strMessage.toByteArray.data.toList

/-- There a signature belongs to one text, and two messages for the same spork at times with as many
digits are unambiguous. -/
theorem offMessage_unambiguous :
    Unambiguous literalContext offMessage ⟨[], SPORK_2_INSTANTX, 4070908800, 1554091741⟩ := by
  have hbytes (text text' : String) (h : text.toByteArray.data.toList
      = text'.toByteArray.data.toList) : text = text' :=
    String.toByteArray_inj.mp (ByteArray.ext (Array.toList_inj.mp h))
  have hbinds : SignatureBinds literalContext := by
    refine ⟨fun vchSig text text' h h' => hbytes _ _ ?_, fun _ vchSig text text' h h' =>
      hbytes _ _ ?_⟩
    · exact (eq_of_beq h).symm.trans (eq_of_beq h')
    · exact (Option.some.inj h).trans (eq_of_beq h')
  refine (spork_unambiguous_iff literalContext hbinds _ _).mpr fun hsame => ?_
  exact fields_eq_of_digitCount hsame (by decide) (by decide)

end ZalemCoin.Network
