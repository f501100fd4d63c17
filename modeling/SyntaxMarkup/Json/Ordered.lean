import SyntaxMarkup.Json.Reader

namespace SyntaxMarkup.Json

namespace Members

/-- Each key once, in increasing order. -/
def Ordered (members : Members) : Prop :=
  (members.map Prod.fst).Pairwise (· < ·)

instance (members : Members) : Decidable members.Ordered :=
  inferInstanceAs (Decidable ((members.map Prod.fst).Pairwise (· < ·)))

theorem mem_keys_insert {key k : String} {value : Json} {members : Members}
    (h : k ∈ (insert key value members).map Prod.fst) :
    k = key ∨ k ∈ members.map Prod.fst := by
  induction members with
  | nil => simpa [insert] using h
  | cons member rest ih =>
    obtain ⟨first, old⟩ := member
    unfold insert at h
    split at h
    · simpa using h
    · split at h
      next same =>
        exact .inr (by simpa [same] using h)
      next =>
        rcases List.mem_cons.mp h with rfl | h
        · exact .inr List.mem_cons_self
        · exact (ih h).imp_right (List.mem_cons_of_mem _)

theorem ordered_insert (key : String) (value : Json) {members : Members}
    (ordered : members.Ordered) : (insert key value members).Ordered := by
  induction members with
  | nil => exact List.pairwise_singleton _ _
  | cons member rest ih =>
    obtain ⟨first, old⟩ := member
    obtain ⟨least, restOrdered⟩ := List.pairwise_cons.mp ordered
    unfold insert
    split
    next before =>
      refine List.pairwise_cons.mpr ⟨?_, ordered⟩
      intro k hm
      rcases List.mem_cons.mp hm with rfl | hm
      · exact before
      · exact String.lt_trans before (least k hm)
    next hb =>
      split
      next same =>
        subst same
        exact ordered
      next other =>
        have after : first < key :=
          Std.lt_of_le_of_ne (String.not_lt.mp hb) (Ne.symm other)
        refine List.pairwise_cons.mpr ⟨?_, ih restOrdered⟩
        intro k hm
        rcases mem_keys_insert hm with rfl | hm
        · exact after
        · exact least k hm

end Members

mutual

/-- The members of every object in a value are in the order of their keys. -/
def Ordered : Json → Prop
  | .array items => ItemsOrdered items
  | .object members => Members.Ordered members ∧ ValuesOrdered members
  | _ => True

def ItemsOrdered : List Json → Prop
  | [] => True
  | item :: rest => item.Ordered ∧ ItemsOrdered rest

def ValuesOrdered : List (String × Json) → Prop
  | [] => True
  | (_, value) :: rest => value.Ordered ∧ ValuesOrdered rest

end

theorem itemsOrdered_iff {items : List Json} :
    ItemsOrdered items ↔ ∀ item ∈ items, item.Ordered := by
  induction items with
  | nil => simp [ItemsOrdered]
  | cons item rest ih => simp [ItemsOrdered, ih]

theorem valuesOrdered_iff {members : List (String × Json)} :
    ValuesOrdered members ↔ ∀ member ∈ members, member.2.Ordered := by
  induction members with
  | nil => simp [ValuesOrdered]
  | cons member rest ih => simp [ValuesOrdered, ih]

theorem valuesOrdered_insert (key : String) {value : Json} {members : Members}
    (hv : value.Ordered) (h : ValuesOrdered members) :
    ValuesOrdered (members.insert key value) := by
  induction members with
  | nil => exact ⟨hv, trivial⟩
  | cons member rest ih =>
    obtain ⟨first, old⟩ := member
    unfold Members.insert
    split
    · exact ⟨hv, h⟩
    · split
      · exact ⟨hv, h.2⟩
      · exact ⟨h.1, ih h.2⟩

theorem ordered_foldl_insert {more : List (String × Json)} {all : Members}
    (h : ValuesOrdered more) (ordered : all.Ordered) (values : ValuesOrdered all) :
    (object (more.foldl (fun all (key, value) => Members.insert key value all) all)).Ordered := by
  induction more generalizing all with
  | nil => simpa [Ordered] using ⟨ordered, values⟩
  | cons member rest ih =>
    exact ih h.2 (Members.ordered_insert _ _ ordered) (valuesOrdered_insert _ h.1 values)

theorem ordered_ofMembers {members : List (String × Json)} (h : ValuesOrdered members) :
    (ofMembers members).Ordered :=
  ordered_foldl_insert h (show Members.Ordered [] from List.Pairwise.nil) trivial

def Frame.Ordered : Frame → Prop
  | .array items => ItemsOrdered items
  | .object members => members.Ordered ∧ ValuesOrdered members
  | .member members _ => members.Ordered ∧ ValuesOrdered members

namespace Token

def Ordered : Token → Prop
  | .scalar value => value.Ordered
  | _ => True

theorem ordered_of_first? {text rest : List Char} {token : Token}
    (h : first? text = some (token, rest)) : token.Ordered := by
  unfold first? at h
  split at h
  case h_7 =>
    obtain ⟨_, _, eq⟩ := Option.map_eq_some_iff.mp h
    cases eq
    trivial
  case h_11 =>
    split at h
    next =>
      obtain ⟨_, _, eq⟩ := Option.map_eq_some_iff.mp h
      cases eq
      trivial
    next => exact nomatch h
  case h_12 => exact nomatch h
  all_goals
    cases h
    trivial

theorem ordered_of_all? {text : List Char} {tokens : List Token} (h : all? text = some tokens) :
    ∀ token ∈ tokens, token.Ordered := by
  fun_induction all? text generalizing tokens with
  | case1 =>
    cases h
    exact fun _ hm => nomatch hm
  | case2 _ _ _ ih => exact ih h
  | case3 => exact nomatch h
  | case4 _ _ _ _ _ step ih =>
    obtain ⟨others, hr, rfl⟩ := Option.map_eq_some_iff.mp h
    exact List.forall_mem_cons.mpr ⟨ordered_of_first? step, ih hr⟩

end Token

namespace Reader

def Ordered (reader : Reader) : Prop :=
  (∀ frame ∈ reader.frames, frame.Ordered) ∧
    match reader.expected with
    | .nothing value => value.Ordered
    | _ => True

theorem ordered_deliver? {value : Json} {frames : List Frame} {reader : Reader}
    (h : deliver? value frames = some reader) (hf : ∀ frame ∈ frames, frame.Ordered)
    (hv : value.Ordered) : reader.Ordered := by
  unfold deliver? at h
  split at h
  · cases h
    exact ⟨hf, hv⟩
  · cases h
    obtain ⟨first, others⟩ := List.forall_mem_cons.mp hf
    exact ⟨List.forall_mem_cons.mpr ⟨⟨hv, first⟩, others⟩, trivial⟩
  · cases h
    obtain ⟨first, others⟩ := List.forall_mem_cons.mp hf
    exact ⟨List.forall_mem_cons.mpr
      ⟨⟨Members.ordered_insert _ _ first.1, valuesOrdered_insert _ hv first.2⟩, others⟩, trivial⟩
  · exact nomatch h

theorem open?_eq {limit : Option Nat} {frames : List Frame} {frame : Frame}
    {expected : Expectation} {reader : Reader}
    (h : open? limit frames frame expected = some reader) :
    reader = ⟨frame :: frames, expected⟩ := by
  unfold open? at h
  split at h
  · split at h
    · exact (Option.some.inj h).symm
    · exact nomatch h
  · exact (Option.some.inj h).symm

theorem ordered_value? {limit : Option Nat} {frames : List Frame} {token : Token}
    {reader : Reader} (h : value? limit frames token = some reader)
    (hf : ∀ frame ∈ frames, frame.Ordered) (ht : token.Ordered) : reader.Ordered := by
  unfold value? at h
  split at h
  · cases open?_eq h
    exact ⟨List.forall_mem_cons.mpr ⟨trivial, hf⟩, trivial⟩
  · cases open?_eq h
    exact ⟨List.forall_mem_cons.mpr ⟨⟨List.Pairwise.nil, trivial⟩, hf⟩, trivial⟩
  · exact ordered_deliver? h hf trivial
  · exact ordered_deliver? h hf ht
  · exact nomatch h

theorem ordered_step? {limit : Option Nat} {reader after : Reader} {token : Token}
    (h : step? limit reader token = some after) (hr : reader.Ordered) (ht : token.Ordered) :
    after.Ordered := by
  have hf := hr.1
  unfold step? at h
  split at h
  case h_1 | h_3 => exact ordered_value? h hf ht
  case h_2 eq => exact ordered_deliver? h (List.forall_mem_cons.mp (eq ▸ hf)).2 trivial
  case h_4 | h_5 =>
    cases h
    exact ⟨hf, trivial⟩
  case h_6 eq =>
    exact ordered_deliver? h (List.forall_mem_cons.mp (eq ▸ hf)).2 ⟨List.Pairwise.nil, trivial⟩
  case h_7 eq =>
    cases h
    obtain ⟨first, others⟩ := List.forall_mem_cons.mp (eq ▸ hf)
    exact ⟨List.forall_mem_cons.mpr ⟨first, others⟩, trivial⟩
  case h_8 eq | h_9 eq =>
    cases h
    exact ⟨eq ▸ hf, trivial⟩
  case h_10 eq =>
    obtain ⟨first, others⟩ := List.forall_mem_cons.mp (eq ▸ hf)
    have first : ItemsOrdered _ := first
    refine ordered_deliver? h others (itemsOrdered_iff.mpr fun item hm => ?_)
    exact itemsOrdered_iff.mp first item (List.mem_reverse.mp hm)
  case h_11 eq =>
    obtain ⟨first, others⟩ := List.forall_mem_cons.mp (eq ▸ hf)
    exact ordered_deliver? h others first
  case h_12 => exact nomatch h

theorem ordered_foldlM {limit : Option Nat} {tokens : List Token} {reader after : Reader}
    (h : tokens.foldlM (step? limit) reader = some after) (hr : reader.Ordered)
    (ht : ∀ token ∈ tokens, token.Ordered) : after.Ordered := by
  induction tokens generalizing reader with
  | nil =>
    cases h
    exact hr
  | cons token rest ih =>
    obtain ⟨next, hread, h⟩ := Option.bind_eq_some_iff.mp h
    obtain ⟨first, others⟩ := List.forall_mem_cons.mp ht
    exact ih h (ordered_step? hread hr first) others

end Reader

/-- A value that is read from text is ordered. -/
theorem ordered_of_read? {limit : Option Nat} {text : String} {value : Json}
    (h : read? limit text = some value) : value.Ordered := by
  obtain ⟨tokens, scanned, h⟩ := Option.bind_eq_some_iff.mp h
  obtain ⟨reader, hr, h⟩ := Option.bind_eq_some_iff.mp h
  have ordered := Reader.ordered_foldlM hr ⟨fun _ hm => (nomatch hm), trivial⟩
    (Token.ordered_of_all? scanned)
  unfold Reader.finish? at h
  split at h
  next eq =>
    cases h
    simpa [Reader.Ordered, eq] using ordered.2
  next => exact nomatch h

end SyntaxMarkup.Json
