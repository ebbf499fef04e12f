import TagLang.Effect.Catalog

/-! # Effects of the runtime library -/

namespace TagLang.Catalog

def builtinEntries : List (String × List String) := [
  ("System.Console::WriteLine(*)", ["cw"]),
  ("System.Console::Write(*)", ["cw"]),
  ("System.Console::ReadLine(*)", ["cr"]),
  ("System.Console::Read(*)", ["cr"]),
  ("System.Console::ReadKey(*)", ["cr"]),
  ("System.IO.File::ReadAllText(*)", ["fr"]),
  ("System.IO.File::ReadAllLines(*)", ["fr"]),
  ("System.IO.File::ReadAllBytes(*)", ["fr"]),
  ("System.IO.File::Exists(*)", ["fr"]),
  ("System.IO.File::WriteAllText(*)", ["fw"]),
  ("System.IO.File::WriteAllLines(*)", ["fw"]),
  ("System.IO.File::AppendAllText(*)", ["fw"]),
  ("System.IO.File::Delete(*)", ["fd"]),
  ("System.IO.File::Copy(*)", ["fr", "fw"]),
  ("System.IO.File::Move(*)", ["fw", "fd"]),
  ("System.IO.Directory::CreateDirectory(*)", ["fw"]),
  ("System.IO.Directory::Delete(*)", ["fd"]),
  ("System.IO.Directory::Exists(*)", ["fr"]),
  ("System.IO.Directory::GetFiles(*)", ["fr"]),
  ("System.IO.Path::Combine(*)", []),
  ("System.IO.Path::GetFileName(*)", []),
  ("System.IO.StreamReader::.ctor(*)", ["fr"]),
  ("System.IO.StreamReader::ReadLine(*)", ["fr"]),
  ("System.IO.StreamWriter::.ctor(*)", ["fw"]),
  ("System.IO.StreamWriter::WriteLine(*)", ["fw"]),
  ("System.Net.Http.HttpClient::.ctor(*)", ["alloc"]),
  ("System.Net.Http.HttpClient::GetAsync(*)", ["net"]),
  ("System.Net.Http.HttpClient::GetStringAsync(*)", ["net"]),
  ("System.Net.Http.HttpClient::PostAsync(*)", ["net"]),
  ("System.Net.Http.HttpClient::SendAsync(*)", ["net"]),
  ("System.Environment::GetEnvironmentVariable(*)", ["env"]),
  ("System.Environment::SetEnvironmentVariable(*)", ["env"]),
  ("System.Environment::Exit(*)", ["proc"]),
  ("System.Diagnostics.Process::Start(*)", ["proc"]),
  ("System.DateTime::get_Now(*)", ["time"]),
  ("System.DateTime::get_UtcNow(*)", ["time"]),
  ("System.DateTime::get_Today(*)", ["time"]),
  ("System.Random::.ctor(*)", []),
  ("System.Random::Next(*)", ["rand"]),
  ("System.Random::NextDouble(*)", ["rand"]),
  ("System.Guid::NewGuid(*)", ["rand"]),
  ("System.Math::Abs(*)", []),
  ("System.Math::Max(*)", []),
  ("System.Math::Min(*)", []),
  ("System.Math::Sqrt(*)", []),
  ("System.Math::Pow(*)", []),
  ("System.Math::Floor(*)", []),
  ("System.Math::Ceiling(*)", []),
  ("System.Convert::ToInt32(*)", ["throw"]),
  ("System.Convert::ToString(*)", []),
  ("System.Int32::Parse(*)", ["throw"]),
  ("System.Int32::TryParse(*)", []),
  ("System.Int32::ToString(*)", []),
  ("System.String::Concat(*)", []),
  ("System.String::Format(*)", []),
  ("System.String::Join(*)", []),
  ("System.String::IsNullOrEmpty(*)", []),
  ("System.String::Substring(*)", []),
  ("System.String::Contains(*)", []),
  ("System.String::StartsWith(*)", []),
  ("System.String::ToUpper(*)", []),
  ("System.String::ToLower(*)", []),
  ("System.String::Trim(*)", []),
  ("System.String::Split(*)", ["alloc"]),
  ("System.Object::ToString(*)", []),
  ("System.Exception::.ctor(*)", []),
  ("System.ArgumentException::.ctor(*)", []),
  ("System.InvalidOperationException::.ctor(*)", []),
  ("System.Collections.Generic.List::.ctor(*)", ["alloc"]),
  ("System.Collections.Generic.List::Add(*)", ["mut"]),
  ("System.Collections.Generic.List::Remove(*)", ["mut"]),
  ("System.Collections.Generic.List::Clear(*)", ["mut"]),
  ("System.Collections.Generic.List::Contains(*)", []),
  ("System.Collections.Generic.Dictionary::.ctor(*)", ["alloc"]),
  ("System.Collections.Generic.Dictionary::Add(*)", ["mut"]),
  ("System.Collections.Generic.Dictionary::ContainsKey(*)", []),
  ("System.Collections.Generic.Dictionary::TryGetValue(*)", []),
  ("System.Collections.Generic.HashSet::.ctor(*)", ["alloc"]),
  ("System.Collections.Generic.HashSet::Add(*)", ["mut"]),
  ("System.Text.StringBuilder::.ctor(*)", ["alloc"]),
  ("System.Text.StringBuilder::Append(*)", ["mut"]),
  ("System.Text.StringBuilder::AppendLine(*)", ["mut"]),
  ("System.Text.StringBuilder::ToString(*)", []),
  ("System.Threading.Thread::Sleep(*)", ["time"]),
  ("System.Threading.Tasks.Task::Delay(*)", ["time"])]

def builtin : Catalog :=
  .ofList (builtinEntries.map fun (signature, codes) => (signature, .ofCodes codes))

end TagLang.Catalog
