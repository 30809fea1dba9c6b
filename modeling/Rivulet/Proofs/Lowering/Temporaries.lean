import Rivulet.Proofs.Lowering.Outcome
import Mathlib.Data.List.Nodup

set_option autoImplicit false

/-! # The names of temporaries

What lowering adds to the table of locals of a function, entry by entry (`Context.Adds`). The name of
a temporary ends with its number, and the rest of the name holds no digit, so the number can be read
off the name (`ordinal`). The numbers of what is added count up from the number of the next temporary,
so no two names are the same (`Context.Adds.nodup`). -/

namespace Rivulet.Ir

/-- The number that is made of the digits in a name. -/
def ordinal (name : String) : Nat := Nat.ofDigitChars 10 (name.toList.filter Char.isDigit) 0

/-- The number of a temporary can be read off its name. -/
theorem ordinal_temp {hint : String} (hhint : hint ∈ Lowering.hints) (n : Nat) :
    ordinal ("$" ++ hint ++ toString n) = n := by
  have hdigits : (toString n).toList.filter Char.isDigit = Nat.toDigits 10 n := by
    rw [Nat.toString_eq_repr, Nat.toList_repr]
    exact List.filter_eq_self.2 fun c hc => Nat.isDigit_of_mem_toDigits (by omega) (by omega) hc
  have hletters : ("$" ++ hint).toList.filter Char.isDigit = [] := by
    simp only [Lowering.hints, List.mem_cons, List.not_mem_nil, or_false] at hhint
    rcases hhint with rfl | rfl | rfl | rfl | rfl | rfl | rfl <;> decide
  rw [ordinal, String.toList_append, List.filter_append, hletters, hdigits, List.nil_append,
    Nat.ofDigitChars_ten_toDigits]

/-- One context extends another by the given temporaries, which are numbered in order. -/
structure Context.Adds (ctx ctx' : Context) (added : List LocalInfo) : Prop where
  locals : ctx'.locals.toList = ctx.locals.toList ++ added
  ordinals : added.map (fun info => ordinal info.name) = List.range' ctx.nextTemp added.length
  temp : ∀ info ∈ added, info.temp = true
  dollar : ∀ info ∈ added, info.name.toList.head? = some '$'
  nextTemp : ctx'.nextTemp = ctx.nextTemp + added.length
  nextSite : ctx'.nextSite = ctx.nextSite

namespace Context.Adds

variable {ctx ctx' ctx'' : Context} {added added' : List LocalInfo}

theorem refl (ctx : Context) : ctx.Adds ctx [] where
  locals := (List.append_nil _).symm
  ordinals := rfl
  temp := by simp
  dollar := by simp
  nextTemp := rfl
  nextSite := rfl

theorem trans (h : ctx.Adds ctx' added) (h' : ctx'.Adds ctx'' added') :
    ctx.Adds ctx'' (added ++ added') where
  locals := by rw [h'.locals, h.locals, List.append_assoc]
  ordinals := by
    rw [List.map_append, h.ordinals, h'.ordinals, h.nextTemp, List.length_append,
      List.range'_append_1]
  temp := List.forall_mem_append.2 ⟨h.temp, h'.temp⟩
  dollar := List.forall_mem_append.2 ⟨h.dollar, h'.dollar⟩
  nextTemp := by rw [h'.nextTemp, h.nextTemp, List.length_append, Nat.add_assoc]
  nextSite := h'.nextSite.trans h.nextSite

theorem freshTemp (ctx : Context) {hint : String} (hhint : hint ∈ Lowering.hints) (t : Ty) :
    ctx.Adds (ctx.freshTemp hint t).2 [⟨"$" ++ hint ++ toString ctx.nextTemp, t, true⟩] where
  locals := Array.toList_push
  ordinals := by rw [List.map_singleton, ordinal_temp hhint]; rfl
  temp := by simp
  dollar := by simp
  nextTemp := rfl
  nextSite := rfl

/-- No two temporaries have the same name. -/
theorem nodup (h : ctx.Adds ctx' added) : (added.map LocalInfo.name).Nodup := by
  -- names with different numbers are different, whatever words they are made from
  have hordinals : ((added.map LocalInfo.name).map ordinal).Nodup := by
    rw [List.map_map]
    exact h.ordinals ▸ List.nodup_range'
  exact hordinals.of_map

end Context.Adds

/-- Whatever lowering does to a context, it adds temporaries to it. -/
theorem Lowering.respected_adds : Respected fun ctx ctx' => ∃ added, Context.Adds ctx ctx' added where
  refl ctx := ⟨[], .refl ctx⟩
  trans := by
    rintro ctx ctx' ctx'' ⟨added, h⟩ ⟨added', h'⟩
    exact ⟨added ++ added', h.trans h'⟩
  freshTemp ctx _ t hhint := ⟨_, .freshTemp ctx hhint t⟩

end Rivulet.Ir
