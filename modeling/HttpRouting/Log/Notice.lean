import HttpRouting.Log.Logger

namespace HttpRouting

structure Noted (α : Type) where
  value : α
  notices : List LogMessage := []

namespace Noted

instance : Monad Noted where
  pure a := ⟨a, []⟩
  bind x f := ⟨(f x.value).value, x.notices ++ (f x.value).notices⟩

@[simp] theorem value_pure {α : Type} (a : α) : (pure a : Noted α).value = a := rfl

@[simp] theorem notices_pure {α : Type} (a : α) : (pure a : Noted α).notices = [] := rfl

@[simp] theorem value_bind {α β : Type} (x : Noted α) (f : α → Noted β) :
    (x >>= f).value = (f x.value).value := rfl

@[simp] theorem notices_bind {α β : Type} (x : Noted α) (f : α → Noted β) :
    (x >>= f).notices = x.notices ++ (f x.value).notices := rfl

theorem value_foldlM {α β : Type} (f : β → α → Noted β) (b : β) (l : List α) :
    (l.foldlM f b).value = l.foldl (fun b a => (f b a).value) b := by
  induction l generalizing b with
  | nil => rfl
  | cons a l ih => rw [List.foldlM_cons, value_bind, ih, List.foldl_cons]

def note (level : LogLevel) (text : Bytes) : Noted Unit := ⟨(), [⟨level, text⟩]⟩

end Noted

def Logger.logAll (l : Logger) (notices : List LogMessage) : Logger :=
  notices.foldl Logger.logMessage l

end HttpRouting
