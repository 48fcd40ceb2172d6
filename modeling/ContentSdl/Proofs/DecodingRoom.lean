import ContentSdl.ContentType.Decode
import ContentSdl.Proofs.RecordOutcomes

/-! # Room beyond the height of a value makes no difference

How deep containers may be nested is told to the decoders. Once that is as deep as a value is, what they
find of it, or the error they report, is the same for any limit. -/

namespace ContentSdl

open Json (Value Node Decoded Origin SameOutcome listWithin recordWithin)

namespace Json

theorem SameOutcome.value (v : Value) : SameOutcome (fun room n => fromFault (n.value room)) v v := by
  obtain ⟨v', h⟩ := exists_value_in_any_room v.height v (Nat.le_refl _)
  intro room room' hv hv'
  dsimp only
  rw [h room hv, h room' hv']

end Json

section

variable (origin : Origin)

theorem decodeFields_eq_listWithin : decodeFields origin = listWithin (decodeField origin) := by
  funext room
  cases room with
  | zero => rw [decodeFields, listWithin]
  | succ room => rw [decodeFields, listWithin]

theorem decodeBlocks_eq_listWithin : decodeBlocks origin = listWithin (decodeBlock origin) := by
  funext room
  cases room with
  | zero => rw [decodeBlocks, listWithin]
  | succ room => rw [decodeBlocks, listWithin]

theorem decodeContentTypes_eq_listWithin : decodeContentTypes = listWithin decodeContentType := by
  funext room
  cases room with
  | zero => rfl
  | succ room => rfl

/-- Puts a member of a field, in at most so many nested containers. -/
def putFieldWithin (room : Nat) (d : FieldDraft) (m : FieldMember) (n : Node) : Decoded FieldDraft :=
  d.put (decodeFields origin room) (decodeBlocks origin room) room m n

theorem decodeField_succ (room : Nat) (n : Node) : decodeField origin (room + 1) n =
    Json.decodeRecord fieldShape origin (some (putFieldWithin origin room)) {} n >>=
      FieldDraft.finish := by
  rw [decodeField]
  rfl

theorem decodeField_eq_recordWithin : decodeField origin = fun room n =>
    recordWithin fieldShape origin (putFieldWithin origin) {} room n >>= FieldDraft.finish := by
  funext room n
  cases room with
  | zero => rw [decodeField, recordWithin]
  | succ room => rw [decodeField_succ, recordWithin]

theorem decodeBlock_eq_recordWithin : decodeBlock origin =
    recordWithin blockShape origin (fun room => putBlock (decodeFields origin room)) emptyBlock := by
  funext room
  cases room with
  | zero => rw [decodeBlock, recordWithin]
  | succ room => rw [decodeBlock, recordWithin]

theorem decodeContentType_eq_recordWithin : decodeContentType =
    recordWithin contentTypeShape .value (fun room => putContentType (decodeFields .value room))
      ⟨"", "", []⟩ := by
  funext room
  cases room with
  | zero => rfl
  | succ room => rfl

end

section

variable {origin : Origin} {v : Value}

theorem sameOutcome_decodeTargets (v : Value) : SameOutcome decodeTargets v v :=
  (SameOutcome.value v).bind _

theorem sameOutcome_put (fields : SameOutcome (decodeFields origin) v v)
    (blocks : SameOutcome (decodeBlocks origin) v v) (d : FieldDraft) (m : FieldMember) :
    SameOutcome (fun room => putFieldWithin origin room d m) v v := by
  cases m with
  | uid | dataType | displayName | mandatory | multiple => exact fun _ _ _ _ => rfl
  | schema => exact fields.decodeNullable.map _
  | blocks => exact blocks.decodeNullable.map _
  | referenceTo => exact (sameOutcome_decodeTargets v).map _

theorem sameOutcome_putBlock (fields : SameOutcome (decodeFields origin) v v) (b : Block)
    (m : BlockMember) : SameOutcome (fun room => putBlock (decodeFields origin room) b m) v v := by
  cases m with
  | uid | title => exact fun _ _ _ _ => rfl
  | schema => exact fields.map _

theorem sameOutcome_putContentType (fields : SameOutcome (decodeFields .value) v v) (c : ContentType)
    (m : ContentTypeMember) :
    SameOutcome (fun room => putContentType (decodeFields .value room) c m) v v := by
  cases m with
  | uid | title => exact fun _ _ _ _ => rfl
  | schema => exact fields.map _

end

/-- The decoders of lists find the same of a value in whatever room it has. -/
structure ListsIndependentOfRoom (origin : Origin) (v : Value) : Prop where
  fields : SameOutcome (decodeFields origin) v v
  blocks : SameOutcome (decodeBlocks origin) v v

section

variable (origin : Origin) {v : Value}

theorem sameOutcome_decodeField_of_smaller
    (smaller : ∀ u : Value, u.height < v.height → ListsIndependentOfRoom origin u) :
    SameOutcome (decodeField origin) v v := by
  rw [decodeField_eq_recordWithin]
  apply SameOutcome.bind
  exact .record_self fun u hu => sameOutcome_put (smaller u hu).fields (smaller u hu).blocks

theorem sameOutcome_decodeBlock_of_smaller
    (smaller : ∀ u : Value, u.height < v.height → ListsIndependentOfRoom origin u) :
    SameOutcome (decodeBlock origin) v v := by
  rw [decodeBlock_eq_recordWithin]
  exact .record_self fun u hu => sameOutcome_putBlock (smaller u hu).fields

theorem listsIndependentOfRoom (v : Value) : ListsIndependentOfRoom origin v := by
  induction hv : v.height using Nat.strong_induction_on generalizing v with
  | _ k ih =>
    subst hv
    have smaller (u : Value) (hu : u.height < v.height) : ListsIndependentOfRoom origin u :=
      ih u.height hu u rfl
    have below {u : Value} (hu : u.height < v.height) (w : Value) (hw : w.height < u.height) :
        ListsIndependentOfRoom origin w := smaller w (Nat.lt_trans hw hu)
    -- Lists hold records and records hold lists, so the lists two levels below are wanted.
    constructor
    · rw [decodeFields_eq_listWithin]
      exact .list_self fun u hu => sameOutcome_decodeField_of_smaller origin (below hu)
    · rw [decodeBlocks_eq_listWithin]
      exact .list_self fun u hu => sameOutcome_decodeBlock_of_smaller origin (below hu)

theorem sameOutcome_decodeField (v : Value) : SameOutcome (decodeField origin) v v :=
  sameOutcome_decodeField_of_smaller origin fun u _ => listsIndependentOfRoom origin u

theorem sameOutcome_decodeBlock (v : Value) : SameOutcome (decodeBlock origin) v v :=
  sameOutcome_decodeBlock_of_smaller origin fun u _ => listsIndependentOfRoom origin u

theorem sameOutcome_decodeContentType (v : Value) : SameOutcome decodeContentType v v := by
  rw [decodeContentType_eq_recordWithin]
  exact .record_self fun u _ => sameOutcome_putContentType (listsIndependentOfRoom .value u).fields

end

end ContentSdl
